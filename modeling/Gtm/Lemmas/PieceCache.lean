import Gtm.Str.PieceCache

/-!
# What the cache holds

An element of the cache holds the places of the first pieces of its string. A search that goes on from there, or starts anew, finds the
piece and leaves such an element.
-/

namespace Gtm

namespace ZPiece

open Pieces

/-! ## Strings in the memory -/

namespace PieceSt

variable {st : PieceSt} {m : Mstr}

/-- The memory holds the whole string. -/
def Holds (st : PieceSt) (m : Mstr) : Prop := (st.str m).length = m.len

theorem Holds.le (h : st.Holds m) : m.len = 0 ∨ m.addr + m.len ≤ st.mem.length := by
  rw [Holds, str, List.length_take, List.length_drop] at h
  omega

theorem str_push (h : st.Holds m) (bytes : List UInt8) : (st.push bytes).str m = st.str m := by
  rcases h.le with hzero | hle
  · rw [str, str, hzero, List.take_zero, List.take_zero]
  · rw [str, str, push, List.drop_append_of_le_length (by omega), List.take_append_of_le_length (by rw [List.length_drop]; omega)]

theorem Holds.push (h : st.Holds m) (bytes : List UInt8) : (st.push bytes).Holds m := by
  rw [Holds, str_push h]
  exact h

theorem str_push_new (bytes : List UInt8) : (st.push bytes).str ⟨st.mem.length, bytes.length⟩ = bytes := by
  rw [str, push, List.drop_left, List.take_length]

/-- A part of a string. -/
theorem str_part {o n : Nat} (h : o + n ≤ m.len) : st.str ⟨m.addr + o, n⟩ = ((st.str m).drop o).take n := by
  rw [str, str, List.drop_take, List.take_take, List.drop_drop, Nat.min_eq_left (by omega)]

theorem Holds.part (h : st.Holds m) {o n : Nat} (hle : o + n ≤ m.len) : st.Holds ⟨m.addr + o, n⟩ := by
  rw [Holds, str_part hle, List.length_take, List.length_drop, h]
  dsimp only
  omega

theorem str_nil (addr : Nat) : st.str ⟨addr, 0⟩ = [] := List.take_zero

theorem holds_nil (addr : Nat) : st.Holds ⟨addr, 0⟩ := by rw [Holds, str_nil, List.length_nil]

end PieceSt

/-! ## Places -/

section Places

variable {c : UInt8} {s : List UInt8} {k : Nat}

theorem single_ne_nil : [c] ≠ [] := by simp

theorem take_offset (h : k < (pieces [c] s).length) : s.take (offset [c] s k) = before [c] ((pieces [c] s).take k) := by
  have heq := congrArg (List.take (offset [c] s k)) (skip_eq single_ne_nil (skip_of_lt single_ne_nil h))
  rwa [offset, List.take_left] at heq

/-- In front of a piece but the first is a delimiter. -/
theorem drop_offset_pred (h : k < (pieces [c] s).length) (hk : k ≠ 0) :
    s.drop (offset [c] s k - 1) = c :: s.drop (offset [c] s k) ∧ offset [c] s k ≠ 0 := by
  have hne : (pieces [c] s).take k ≠ [] := by
    intro hnil
    have hlen := congrArg List.length hnil
    rw [List.length_take, List.length_nil] at hlen
    omega
  have heq := skip_eq single_ne_nil (skip_of_lt single_ne_nil h)
  have hlen : offset [c] s k = ([c].intercalate ((pieces [c] s).take k)).length + 1 := by
    rw [offset, ← join_append_delim hne, List.length_append]
    rfl
  rw [← join_append_delim hne, List.append_assoc] at heq
  have hdrop := congrArg (List.drop (offset [c] s k - 1)) heq
  rw [hlen, Nat.add_sub_cancel, List.drop_left, ← hlen] at hdrop
  refine ⟨?_, by omega⟩
  rw [hlen, Nat.add_sub_cancel, hdrop, hlen]
  rfl

theorem lt_of_offset_lt (hk : k ≤ (pieces [c] s).length) (h : offset [c] s k < s.length) : k < (pieces [c] s).length := by
  rcases Nat.eq_or_lt_of_le hk with rfl | hlt
  · rw [offset_length single_ne_nil] at h
    omega
  · exact hlt

/-- At the end of the string is the place behind the last piece, or that of a last piece without bytes. -/
theorem eq_of_le_offset (hk : k ≤ (pieces [c] s).length) (h : s.length ≤ offset [c] s k) :
    k = (pieces [c] s).length ∧ offset [c] s k = s.length + 1 ∨ k + 1 = (pieces [c] s).length ∧ offset [c] s k = s.length := by
  rcases Nat.eq_or_lt_of_le hk with rfl | hlt
  · exact .inl ⟨rfl, offset_length single_ne_nil s⟩
  · have heq := Nat.le_antisymm (offset_le single_ne_nil hlt) h
    have hrest := pieces_drop_offset single_ne_nil hlt
    rw [List.drop_eq_nil_of_le h, pieces_of_none single_ne_nil rfl] at hrest
    have hlen := congrArg List.length hrest
    rw [List.length_drop, List.length_singleton] at hlen
    exact .inr ⟨by omega, heq⟩

theorem pieceRange_one (h : k < (pieces [c] s).length) : pieceRange [c] s k 1 = (pieces [c] s).get ⟨k, h⟩ := by
  rw [pieceRange, List.drop_eq_getElem_cons h, List.take_succ_cons, List.take_zero, join_singleton]
  rfl

/-- The bytes of a piece. -/
theorem take_piece (h : k < (pieces [c] s).length) :
    (s.drop (offset [c] s k)).take (offset [c] s (k + 1) - offset [c] s k - 1) = pieceRange [c] s k 1 := by
  have hskip := skip_of_lt (show [c] ≠ [] from single_ne_nil) h
  have hlen : offset [c] s (k + 1) - offset [c] s k - 1 = (pieceRange [c] s k 1).length := by
    rw [offset_succ h, pieceRange_one h, List.length_singleton]
    omega
  rw [hlen]
  cases hnext : skip [c] 1 (s.drop (offset [c] s k)) with
  | none =>
    rw [pieceRange_of_none single_ne_nil hskip hnext]
    exact List.take_length
  | some r =>
    have heq := congrArg (List.take (pieceRange [c] s k 1).length) (pieceRange_of_skip single_ne_nil hskip Nat.one_ne_zero hnext)
    rw [List.append_assoc, List.take_left] at heq
    exact heq.symm

/-- There is no piece past the end of the string, or it has no bytes. -/
theorem pieceRange_past {f : Nat} (hk : k ≤ (pieces [c] s).length) (h : s.length ≤ offset [c] s k) (hf : k ≤ f) :
    pieceRange [c] s f 1 = [] := by
  by_cases hle : (pieces [c] s).length ≤ f
  · exact pieceRange_of_le hle
  · obtain ⟨rfl, -⟩ | ⟨hlast, -⟩ := eq_of_le_offset hk h
    · exact absurd hf hle
    · obtain rfl : f = k := by omega
      rw [pieceRange, ← pieces_drop_offset single_ne_nil (by omega), List.drop_eq_nil_of_le h]
      rfl

end Places

/-! ## The scan -/

/-- The places of the first pieces. -/
structure Starts (c : UInt8) (s : List UInt8) (npcs : Nat) (pstart : Nat → Nat) : Prop where
  pos : 0 < npcs
  le_max : npcs ≤ fnpcElemMax
  le : npcs ≤ (pieces [c] s).length
  eq_offset : ∀ j ≤ npcs, pstart j = offset [c] s j

/-- The scan has passed `k` pieces. -/
structure ScanAt (c : UInt8) (s : List UInt8) (k : Nat) (sc : Scan) : Prop where
  le : k ≤ (pieces [c] s).length
  cpcidx_eq : sc.cpcidx = k + 1
  last_eq : sc.last = offset [c] s k
  pcoff_eq : sc.pcoff = if k < fnpcElemMax then k else fnpcElemMax + 1
  filled : ∀ j < sc.pcoff, sc.pstart j = offset [c] s j

section Scan

variable {c : UInt8} {s : List UInt8} {k : Nat} {sc : Scan}

theorem ScanAt.piece (h : ScanAt c s k sc) (hlt : sc.last < s.length) :
    ScanAt c s (k + 1) (scanPiece c s sc) ∧ (scanPiece c s sc).first = offset [c] s k := by
  have hk := lt_of_offset_lt h.le (h.last_eq ▸ hlt)
  have hlast : sc.last + (s.drop sc.last).findIdx (· == c) + 1 = offset [c] s (k + 1) := by
    rw [h.last_eq, findIdx_drop_offset hk, offset_succ hk]
    rfl
  have hpcoff := h.pcoff_eq
  refine ⟨?_, h.last_eq⟩
  rw [scanPiece]
  by_cases hroom : sc.pcoff < fnpcElemMax
  · obtain ⟨hoff, hk81⟩ : sc.pcoff = k ∧ k < fnpcElemMax := by
      split at hpcoff <;> omega
    rw [if_pos hroom]
    by_cases hfull : sc.pcoff + 1 = fnpcElemMax
    · rw [if_pos hfull]
      refine ⟨hk, by rw [← h.cpcidx_eq], hlast, ?_, fun j hj => ?_⟩
      · rw [if_neg (by omega), ← hfull]
      · dsimp only [setElem] at hj ⊢
        split
        · next heq => rw [heq, hlast, hoff]
        · split
          · next heq => rw [heq, h.last_eq, hoff]
          · exact h.filled j (by omega)
    · rw [if_neg hfull]
      refine ⟨hk, by rw [← h.cpcidx_eq], hlast, ?_, fun j hj => ?_⟩
      · rw [if_pos (by omega), ← hoff]
      · dsimp only [setElem] at hj ⊢
        split
        · next heq => rw [heq, h.last_eq, hoff]
        · exact h.filled j (by omega)
  · obtain ⟨hoff, hk81⟩ : sc.pcoff = fnpcElemMax + 1 ∧ fnpcElemMax ≤ k := by
      split at hpcoff <;> omega
    rw [if_neg hroom, if_neg (by omega)]
    exact ⟨hk, by rw [← h.cpcidx_eq], hlast, by rw [if_neg (by omega), ← hoff], h.filled⟩

/-- The loop passes as many pieces as asked for, or all that do not start at the end. -/
theorem ScanAt.loop (h : ScanAt c s k sc) (n : Nat) :
    ∃ k', k ≤ k' ∧ k' ≤ k + n ∧ ScanAt c s k' (scanLoop c s n sc) ∧ (k' = k → scanLoop c s n sc = sc) ∧
      (k < k' → (scanLoop c s n sc).first = offset [c] s (k' - 1)) ∧ (k' = k + n ∨ s.length ≤ offset [c] s k') := by
  induction n generalizing k sc with
  | zero => exact ⟨k, Nat.le_refl _, Nat.le_refl _, h, fun _ => rfl, fun hlt => absurd hlt (Nat.lt_irrefl _), .inl rfl⟩
  | succ n ih =>
    rw [scanLoop]
    by_cases hlt : sc.last < s.length
    · obtain ⟨hpiece, hfirst⟩ := h.piece hlt
      obtain ⟨k', hle, hle', hat, hsame, hfirst', hstop⟩ := ih hpiece
      rw [if_pos hlt]
      refine ⟨k', by omega, by omega, hat, by omega, fun _ => ?_, ?_⟩
      · rcases Nat.eq_or_lt_of_le hle with rfl | hmore
        · rw [hsame rfl, hfirst]
          rfl
        · exact hfirst' hmore
      · rcases hstop with heq | hend
        · exact .inl (by omega)
        · exact .inr hend
    · rw [if_neg hlt]
      exact ⟨k, Nat.le_refl _, by omega, h, fun _ => rfl, fun hlt => absurd hlt (Nat.lt_irrefl _), .inr (by rw [← h.last_eq]; omega)⟩

end Scan

/-! ## `op_fnzp1` -/

/-- What is known of an element is right. -/
def Fnpc.Right (st : PieceSt) (c : Fnpc) : Prop :=
  c.lastStr.len ≠ 0 → c.byteOriented = true → st.Holds c.lastStr ∧ Starts c.delim.toUInt8 (st.str c.lastStr) c.npcs c.pstart

/-- The whole cache is. -/
def Cached (st : PieceSt) : Prop := ∀ i, (st.fnpcs i).Right st

/-- An element is for a string and has the places of so many pieces, unless the string has no more. -/
structure Fnpc.For (st : PieceSt) (c : Fnpc) (src : Mstr) (delim : UInt32) (trg : Nat) : Prop where
  lastStr_eq : c.lastStr = src
  delim_eq : c.delim = delim
  starts : Starts delim.toUInt8 (st.str src) c.npcs c.pstart
  stop : c.npcs < min trg fnpcElemMax → (st.str src).length ≤ offset [delim.toUInt8] (st.str src) c.npcs

section Fnzp1

variable {st : PieceSt} {src ldst : StrMval} {delim : UInt32} {i k trg : Nat} {sc : Scan}

/-- The elements besides one are not changed. -/
structure Keeps (st st' : PieceSt) (i : Nat) : Prop where
  mem_eq : st'.mem = st.mem
  other : ∀ j, j ≠ i → st'.fnpcs j = st.fnpcs j

theorem Keeps.refl (st : PieceSt) (i : Nat) : Keeps st st i := ⟨rfl, fun _ _ => rfl⟩

theorem Keeps.setFnpc (st : PieceSt) (i : Nat) (c : Fnpc) : Keeps st (st.setFnpc i c) i := ⟨rfl, fun _ hj => if_neg hj⟩

theorem Keeps.trans {st st' st'' : PieceSt} (h : Keeps st st' i) (h' : Keeps st' st'' i) : Keeps st st'' i :=
  ⟨h'.mem_eq.trans h.mem_eq, fun j hj => (h'.other j hj).trans (h.other j hj)⟩

theorem Keeps.str {st' : PieceSt} (h : Keeps st st' i) (m : Mstr) : st'.str m = st.str m := by rw [PieceSt.str, h.mem_eq, PieceSt.str]

theorem Fnpc.Right.of_mem {st' : PieceSt} {c : Fnpc} (h : c.Right st) (hmem : st'.mem = st.mem) : c.Right st' := by
  intro hlen hbyte
  obtain ⟨hholds, hstarts⟩ := h hlen hbyte
  have hstr : st'.str c.lastStr = st.str c.lastStr := by rw [PieceSt.str, hmem, PieceSt.str]
  exact ⟨by rwa [PieceSt.Holds, hstr], by rwa [hstr]⟩

theorem setFnpc_self (st : PieceSt) (i : Nat) (c : Fnpc) : (st.setFnpc i c).fnpcs i = c := if_pos rfl

/-- The search from a place of the string on. -/
theorem fnzp1Scan_spec (hsrc : st.Holds src.str) (hstr : (st.fnpcs i).lastStr = src.str) (hdelim : (st.fnpcs i).delim = delim)
    (hk : (st.fnpcs i).npcs = k) (hstarts : k ≠ 0 → Starts delim.toUInt8 (st.str src.str) k (st.fnpcs i).pstart)
    (hempty : src.str.len ≠ 0) (hat : ScanAt delim.toUInt8 (st.str src.str) k sc) (htrg : k < trg) :
    let out := fnzp1Scan st src i delim.toUInt8 trg sc ldst
    Keeps st out.st i ∧ (out.st.fnpcs i).For st src.str delim trg ∧ (out.st.fnpcs i).byteOriented = (st.fnpcs i).byteOriented ∧
      out.src = src ∧ st.str out.dst.str = pieceRange [delim.toUInt8] (st.str src.str) (trg - 1) 1 ∧ st.Holds out.dst.str := by
  have hlen : (st.str src.str).length = src.str.len := hsrc
  obtain ⟨k', hle, hle', hat', hsame, hfirst, hstop⟩ := hat.loop (trg + 1 - sc.cpcidx)
  have hcpc := hat.cpcidx_eq
  have hcpc' := hat'.cpcidx_eq
  rw [hcpc] at hle' hstop hsame hfirst hcpc' hat'
  simp only [fnzp1Scan, hcpc, hcpc']
  by_cases hmore : k = k'
  · -- nothing is scanned: the cache has gone to the end of the string
    subst hmore
    rw [if_neg (by simp)]
    have hend : (st.str src.str).length ≤ offset [delim.toUInt8] (st.str src.str) k := hstop.resolve_left (by omega)
    have hpos : k ≠ 0 := by
      rintro rfl
      rw [offset_zero] at hend
      omega
    refine ⟨.refl st i, ⟨hstr, hdelim, hk ▸ hstarts hpos, fun _ => hk ▸ hend⟩, rfl, rfl, ?_, PieceSt.holds_nil _⟩
    rw [PieceSt.str_nil, pieceRange_past hat.le hend (by omega)]
  · rw [if_pos (by omega)]
    have hlt : k < k' := by omega
    have hpcoff := hat'.pcoff_eq
    have hmax : fnpcElemMax = 81 := rfl
    have hnpcs : min ((st.fnpcs i).npcs + (k' + 1) - (k + 1)) fnpcElemMax = min k' fnpcElemMax := by
      congr 1
      omega
    refine ⟨.setFnpc st i _, ?_, ?_, rfl, ?_⟩
    · rw [setFnpc_self]
      refine ⟨hstr, hdelim, ⟨?_, ?_, ?_, fun j hj => ?_⟩, fun hfew => ?_⟩
      · dsimp only
        omega
      · exact Nat.min_le_right _ _
      · have := hat'.le
        dsimp only
        omega
      · dsimp only at hj ⊢
        by_cases hroom : k' < fnpcElemMax
        · rw [if_pos hroom] at hpcoff
          rw [hpcoff, if_pos hroom]
          dsimp only [setElem]
          split
          · next heq => rw [heq, hat'.last_eq]
          · exact hat'.filled j (by omega)
        · rw [if_neg hroom] at hpcoff
          rw [if_neg (by omega)]
          exact hat'.filled j (by omega)
      · dsimp only at hfew ⊢
        rw [hnpcs] at hfew ⊢
        rcases hstop with heq | hend
        · omega
        · rwa [Nat.min_eq_left (by omega)]
    · rw [setFnpc_self]
    · rw [hfirst hlt, hat'.last_eq]
      by_cases hfound : trg < k' + 1
      · obtain rfl : k' = trg := by omega
        have htrg1 : k' - 1 < (pieces [delim.toUInt8] (st.str src.str)).length := by
          have := hat'.le
          omega
        have hpiece := take_piece htrg1
        have hsucc := offset_succ htrg1
        rw [Nat.sub_add_cancel (by omega)] at hpiece hsucc
        have hin := congrArg List.length hpiece
        rw [List.length_take, List.length_drop, pieceRange_one htrg1] at hin
        have hoff := offset_le single_ne_nil htrg1
        rw [List.length_singleton] at hsucc
        rw [if_pos hfound, Nat.sub_right_comm, PieceSt.str_part (by omega), hpiece]
        exact ⟨rfl, hsrc.part (by omega)⟩
      · rw [if_neg hfound, pieceRange_past hat'.le (hstop.resolve_left (by omega)) (by omega)]
        exact ⟨rfl, PieceSt.holds_nil _⟩

theorem Cached.of_keeps {st' : PieceSt} (h : Cached st) (hkeeps : Keeps st st' i) (hi : (st'.fnpcs i).Right st') : Cached st' := by
  intro j
  by_cases hj : j = i
  · rw [hj]
    exact hi
  · rw [hkeeps.other j hj]
    exact (h j).of_mem hkeeps.mem_eq

theorem Fnpc.For.right {st' : PieceSt} {c : Fnpc} (h : c.For st src.str delim trg) (hsrc : st.Holds src.str) (hmem : st'.mem = st.mem) :
    c.Right st' := by
  have hright : c.Right st := fun _ _ => by
    rw [h.lastStr_eq, h.delim_eq]
    exact ⟨hsrc, h.starts⟩
  exact hright.of_mem hmem

/-- What `op_fnzp1` has come to, where there is a piece to look for: the element of the cache, and the piece. -/
structure FnzSpec (st : PieceSt) (src : StrMval) (delim : UInt32) (trg : Nat) (out : FnzOut) : Prop where
  cached : Cached out.st
  mem_eq : out.st.mem = st.mem
  src_eq : out.src.str = src.str
  elem : (out.st.fnpcs (out.src.fnpcIndx - 1)).For out.st src.str delim trg
  piece : st.str out.dst.str = pieceRange [delim.toUInt8] (st.str src.str) (trg - 1) 1
  holds : st.Holds out.dst.str

theorem Fnpc.For.of_mem {st' : PieceSt} {c : Fnpc} (h : c.For st src.str delim trg) (hmem : st'.mem = st.mem) :
    c.For st' src.str delim trg := by
  have hstr : st'.str src.str = st.str src.str := by rw [PieceSt.str, hmem, PieceSt.str]
  exact ⟨h.lastStr_eq, h.delim_eq, hstr ▸ h.starts, hstr ▸ h.stop⟩

theorem FnzSpec.of_scan (h : Cached st) (hsrc : st.Holds src.str) {st₁ : PieceSt} (hkeeps : Keeps st st₁ i) {src₁ : StrMval}
    (hsrc₁ : src₁.str = src.str) (hindx : src₁.fnpcIndx - 1 = i) {out : FnzOut}
    (hout : Keeps st₁ out.st i ∧ (out.st.fnpcs i).For st₁ src₁.str delim trg ∧ (out.st.fnpcs i).byteOriented = (st₁.fnpcs i).byteOriented ∧
      out.src = src₁ ∧ st₁.str out.dst.str = pieceRange [delim.toUInt8] (st₁.str src₁.str) (trg - 1) 1 ∧ st₁.Holds out.dst.str) :
    FnzSpec st src delim trg out := by
  obtain ⟨hkeeps', hfor, -, hsrc', hpiece, hdst⟩ := hout
  rw [hsrc₁] at hfor hpiece
  rw [hkeeps.str, hkeeps.str] at hpiece
  have hfor' : (out.st.fnpcs i).For out.st src.str delim trg := hfor.of_mem hkeeps'.mem_eq
  have hmem := (hkeeps.trans hkeeps').mem_eq
  have hholds : out.st.Holds src.str := by
    rw [PieceSt.Holds, PieceSt.str, hmem]
    exact hsrc
  rw [PieceSt.Holds, hkeeps.str] at hdst
  refine ⟨h.of_keeps (hkeeps.trans hkeeps') (hfor'.right hholds rfl), hmem, by rw [hsrc', hsrc₁], ?_, hpiece, hdst⟩
  rwa [hsrc', hindx]

theorem fnpcValid_iff : fnpcValid st src delim = true ↔ src.fnpcIndx ≠ 0 ∧ src.fnpcIndx - 1 < fnpcMax ∧
    (st.fnpcs (src.fnpcIndx - 1)).lastStr = src.str ∧ (st.fnpcs (src.fnpcIndx - 1)).delim = delim ∧
      (st.fnpcs (src.fnpcIndx - 1)).byteOriented = true := by
  obtain ⟨⟨-, len⟩, indx⟩ := src
  rcases hc : (st.fnpcs (indx - 1)).lastStr with ⟨addr', len'⟩
  simp only [fnpcValid, hc, decide_eq_true_eq, Mstr.mk.injEq, and_assoc]

/-- `op_fnzp1` finds the piece, and leaves a right cache, with an element for the source. -/
theorem opFnzp1_spec (h : Cached st) (hsrc : st.Holds src.str) (hlen : src.str.len ≠ 0) {trgpcidx : Int} (hpos : 0 < trgpcidx) :
    FnzSpec st src delim trgpcidx.toNat (opFnzp1 st src delim trgpcidx ldst) := by
  have hslen : (st.str src.str).length = src.str.len := hsrc
  simp only [opFnzp1]
  rw [if_neg (by omega)]
  by_cases hvalid : fnpcValid st src delim = true
  · rw [if_pos hvalid]
    obtain ⟨-, -, hlast, hdelim, hbyte⟩ := fnpcValid_iff.1 hvalid
    obtain ⟨-, hstarts⟩ := h (src.fnpcIndx - 1) (hlast ▸ hlen) hbyte
    rw [hlast, hdelim] at hstarts
    by_cases hin : trgpcidx.toNat ≤ (st.fnpcs (src.fnpcIndx - 1)).npcs
    · rw [if_pos hin]
      have hall : ¬(st.fnpcs (src.fnpcIndx - 1)).npcs < min trgpcidx.toNat fnpcElemMax := by omega
      suffices hdst : _ ∧ _ from ⟨h, rfl, rfl, ⟨hlast, hdelim, hstarts, fun hfew => absurd hfew hall⟩, hdst.1, hdst.2⟩
      have hle := hstarts.le
      have htrg1 : trgpcidx.toNat - 1 < (pieces [delim.toUInt8] (st.str src.str)).length := by omega
      have hpiece := take_piece htrg1
      have hoff := offset_le single_ne_nil htrg1
      have hsucc := offset_succ htrg1
      have hin' := congrArg List.length hpiece
      rw [Nat.sub_add_cancel (by omega)] at hpiece hsucc hin'
      rw [List.length_take, List.length_drop, pieceRange_one htrg1] at hin'
      rw [List.length_singleton] at hsucc
      rw [hstarts.eq_offset _ (by omega), hstarts.eq_offset _ (by omega), PieceSt.str_part (by omega), hpiece]
      exact ⟨rfl, hsrc.part (by omega)⟩
    · rw [if_neg hin]
      have hat : ScanAt delim.toUInt8 (st.str src.str) (st.fnpcs (src.fnpcIndx - 1)).npcs
          ⟨(st.fnpcs (src.fnpcIndx - 1)).npcs + 1, (st.fnpcs (src.fnpcIndx - 1)).pstart (st.fnpcs (src.fnpcIndx - 1)).npcs,
            (st.fnpcs (src.fnpcIndx - 1)).pstart (st.fnpcs (src.fnpcIndx - 1)).npcs,
            if (st.fnpcs (src.fnpcIndx - 1)).npcs = fnpcElemMax then (st.fnpcs (src.fnpcIndx - 1)).npcs + 1
              else (st.fnpcs (src.fnpcIndx - 1)).npcs, (st.fnpcs (src.fnpcIndx - 1)).pstart⟩ := by
        have hmax := hstarts.le_max
        refine ⟨hstarts.le, rfl, hstarts.eq_offset _ (Nat.le_refl _), ?_, fun j hj => hstarts.eq_offset j ?_⟩
        · dsimp only
          split <;> split <;> omega
        · dsimp only at hj
          split at hj <;> omega
      exact .of_scan h hsrc (.refl st _) rfl rfl
        (fnzp1Scan_spec hsrc hlast hdelim rfl (fun _ => hstarts) hlen hat (Nat.lt_of_not_le hin))
  · rw [if_neg hvalid]
    have hat : ScanAt delim.toUInt8 (st.str src.str) 0 ⟨1, 0, 0, 0, (st.fnpcs st.steal.1).pstart⟩ :=
      ⟨Nat.zero_le _, rfl, rfl, rfl, fun j hj => absurd hj (Nat.not_lt_zero j)⟩
    have hscan := @fnzp1Scan_spec (st.steal.2.setFnpc st.steal.1
      { st.fnpcs st.steal.1 with lastStr := src.str, delim := delim, npcs := 0, byteOriented := true })
      { src with fnpcIndx := st.steal.1 + 1 } ldst delim st.steal.1 0 trgpcidx.toNat
      ⟨1, 0, 0, 0, (st.fnpcs st.steal.1).pstart⟩ hsrc (by rw [setFnpc_self]) (by rw [setFnpc_self]) (by rw [setFnpc_self])
      (fun hne => absurd rfl hne) hlen hat (by omega)
    have hkeeps : Keeps st (st.steal.2.setFnpc st.steal.1
        { st.fnpcs st.steal.1 with lastStr := src.str, delim := delim, npcs := 0, byteOriented := true }) st.steal.1 :=
      ⟨rfl, fun _ hj => if_neg hj⟩
    have hsame : ({ src with fnpcIndx := st.steal.1 + 1 } : StrMval).str = src.str := rfl
    exact .of_scan h hsrc hkeeps hsame rfl hscan

end Fnzp1

end ZPiece

end Gtm
