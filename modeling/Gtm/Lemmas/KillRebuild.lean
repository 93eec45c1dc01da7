import Gtm.Lemmas.KillRange

/-!
# The rebuilt block

The pieces of which `gvcst_kill_blk` makes the new block encode the entries that are left. The record behind the range gets the
bytes of its key that the records of the range have supplied, never more than these records take, so that the block does not grow.
-/

namespace Gtm

open CommonPrefix LexOrder

/-! ## Records in their places -/

section Places

variable {b : GdsBlk} {pre post : List Entry} {e : Entry}

/-- The offset behind the first entries of a block. -/
abbrev blkEnd (es : List Entry) : Nat := endOf blkHdrSize [] es

theorem blkEnd_ge (es : List Entry) : blkHdrSize ≤ blkEnd es := endOf_ge _ _ _

theorem blkEnd_append (es es' : List Entry) : blkEnd (es ++ es') = endOf (blkEnd es) (lastKey [] es) es' := endOf_append _ _ _ _

/-- The record of an entry. -/
theorem Laid.record (h : Laid b blkHdrSize [] (pre ++ e :: post)) :
    b.rsiz (blkEnd pre) = e.size (lastKey [] pre) ∧ b.evalCmpc (blkEnd pre) = e.cmpc (lastKey [] pre) ∧
      b.HasBytes (blkEnd pre + recHdrSize) (e.data (lastKey [] pre)) ∧
      blkEnd pre + e.size (lastKey [] pre) ≤ b.bsiz := by
  have hl := h.append
  exact ⟨hl.1, hl.2.1, hl.2.2.1, hl.2.2.2.1⟩

theorem endOf_snoc (off : Nat) (prior : List UInt8) (pre : List Entry) (e : Entry) :
    endOf off prior (pre ++ [e]) = endOf off prior pre + e.size (lastKey prior pre) := by
  rw [endOf_append]
  rfl

theorem blkEnd_snoc (es : List Entry) (e : Entry) : blkEnd (es ++ [e]) = blkEnd es + e.size (lastKey [] es) := endOf_snoc _ _ _ _

theorem lastKey_snoc (prior : List UInt8) (pre : List Entry) (e : Entry) : lastKey prior (pre ++ [e]) = e.keyBytes := by
  rw [lastKey_append]
  rfl

theorem lastOff_snoc (pre : List Entry) (e : Entry) : lastOff (pre ++ [e]) = blkEnd pre := by simp [lastOff]

end Places

section Pointers

variable {b : GdsBlk} {searchKey : List UInt8} {low high : SrchRec} {rightExtra : Bool} {before range behind : List Entry}

/-- How many records at the right end go as well. -/
def extra (rightExtra : Bool) : Nat := if rightExtra then 1 else 0

section
variable (hcut : Cut searchKey low high before range behind) (hl : Laid b blkHdrSize [] (before ++ range ++ behind))
include hcut hl

/-- The first deleted record is that behind the last one before the range. -/
theorem Cut.delPtr : (if low.offset = 0 then blkHdrSize else low.offset + b.rsiz low.offset) = blkEnd before := by
  rw [hcut.lowOff]
  rcases List.eq_nil_or_concat before with rfl | ⟨pre, e, rfl⟩
  · rfl
  · rw [List.concat_eq_append] at hl ⊢
    rw [List.append_assoc, List.append_assoc] at hl
    have hge : 16 ≤ blkEnd pre := blkEnd_ge pre
    rw [lastOff_snoc, if_neg (by omega), hl.record.1, blkEnd_snoc]

/-- The first record that is left behind the range. -/
theorem Cut.rightPtr (hextra : rightExtra = true → behind ≠ []) :
    (if rightExtra = true ∧ high.offset < b.bsiz then high.offset + b.rsiz high.offset else high.offset) =
      blkEnd (before ++ (range ++ behind.take (extra rightExtra))) := by
  rw [hcut.highOff]
  cases rightExtra with
  | false => simp [extra]
  | true =>
    obtain ⟨t, rest, rfl⟩ := List.exists_cons_of_ne_nil (hextra rfl)
    have hlt := hl.append.off_lt (by simp)
    rw [if_pos ⟨rfl, hlt⟩, hl.record.1, ← endOf_snoc]
    simp [extra]

end

end Pointers

/-! ## How the key behind the range grows -/

variable {n : Nat}

theorem drop_take_eq {u v : List UInt8} (h : u.take n = v.take n) (m : Nat) : (u.drop m).take (n - m) = (v.drop m).take (n - m) := by
  rw [← List.drop_take, ← List.drop_take, h]

theorem drop_take_append (u : List UInt8) {l m : Nat} (h1 : l ≤ m) (h2 : m ≤ n) :
    (u.drop l).take (m - l) ++ (u.drop m).take (n - m) = (u.drop l).take (n - l) := by
  rw [show n - l = (m - l) + (n - m) by omega, List.take_add, List.drop_drop, show l + (m - l) = m by omega]

/-- The bytes of the search key, then those of the record of the search. -/
theorem regrow_two {s t₀ t : List UInt8} {base c₀ c c' : Nat} (hle : c₀ ≤ c) (hs : base < c₀ → s.take c₀ = t₀.take c₀)
    (ht : t₀.take c = t.take c) (hc' : c' = min (min c₀ base) c) :
    (s.drop base).take (c₀ - base) ++ (t₀.drop c₀).take (c - c₀) = (t.drop c').take (c - c') := by
  rw [← drop_take_eq ht c']
  by_cases hlt : base < c₀
  · rw [show c' = base by omega, drop_take_eq (hs hlt) base]
    exact drop_take_append t₀ hlt.le hle
  · rw [show c' = c₀ by omega, show c₀ - base = 0 by omega, List.take_zero, List.nil_append]

/-- The search key has all bytes where the record of the search shares more than the one behind it. -/
theorem regrow_cut {s t₀ t : List UInt8} {base c₀ c c' : Nat} (hlt : c < c₀) (hs : base < c₀ → s.take c₀ = t₀.take c₀)
    (ht : t₀.take c = t.take c) (hc' : c' = min (min c₀ base) c) :
    (s.drop base).take (if c₀ - c < c₀ - base then c₀ - base - (c₀ - c) else 0) = (t.drop c').take (c - c') := by
  rw [← drop_take_eq ht c']
  by_cases hbase : base < c
  · have hsc : s.take c = t₀.take c := by
      have h := congrArg (List.take c) (hs (by omega))
      rwa [List.take_take, List.take_take, Nat.min_eq_left hlt.le] at h
    rw [if_pos (by omega), show c₀ - base - (c₀ - c) = c - base by omega, show c' = base by omega]
    exact drop_take_eq hsc base
  · rw [if_neg (by omega), show c' = c by omega, Nat.sub_self, List.take_zero, List.take_zero]

/-- Over an entry in between, two entries agree as far as both do with it. -/
theorem Contents.lcp_skip {level0 : Bool} {pre mid post : List Entry} {t₀ t : Entry}
    (h : Contents level0 n [] (pre ++ mid ++ t₀ :: t :: post)) :
    lcp (lastKey [] pre) t.keyBytes = min (lcp (lastKey [] pre) t₀.keyBytes) (lcp t₀.keyBytes t.keyBytes) := by
  cases hk : t.key with
  | none => simp [Entry.keyBytes, hk]
  | some k =>
    have hsplit : pre ++ mid ++ t₀ :: t :: post = (pre ++ mid ++ [t₀]) ++ t :: post := by simp
    obtain ⟨k₀, hk₀⟩ := (hsplit ▸ h).key_of_append (by simp) (e := t₀) (by simp)
    have hkb : t.keyBytes = k := by simp [Entry.keyBytes, hk]
    have hkb₀ : t₀.keyBytes = k₀ := by simp [Entry.keyBytes, hk₀]
    have h1 : lastKey [] pre < k₀ := by
      rw [List.append_assoc] at h
      exact (h.append (by simp)).prior_lt (by simp) hk₀
    have h2 : k₀ < k := by
      rw [hsplit] at h
      have hc := h.append (by simp)
      rw [lastKey_snoc, hkb₀] at hc
      exact hc.prior_lt (by simp) hk
    rw [hkb, hkb₀]
    exact lcp_of_le_of_le h1.le h2.le

theorem GdsBlk.take_bytes (b : GdsBlk) (off m n : Nat) : (b.bytes off n).take m = b.bytes off (min m n) := by
  simp [GdsBlk.bytes, List.take_range, ← List.map_take]

section Growth

variable {b : GdsBlk} {searchKey : List UInt8} {low high : SrchRec} {rightExtra : Bool} {before range behind : List Entry}

/-- The key of the first record behind the range gets back just the bytes that the one before the range does not supply. -/
theorem keyGrowth_spec (hcut : Cut searchKey low high before range behind) (h : WfBlk b (before ++ range ++ behind))
    (hextra : rightExtra = true → behind ≠ []) {t : Entry} {rest : List Entry} (hrest : behind.drop (extra rightExtra) = t :: rest) :
    let gone := range ++ behind.take (extra rightExtra)
    let c := lcp (lastKey [] (before ++ gone)) t.keyBytes
    let c' := lcp (lastKey [] before) t.keyBytes
    let growth := keyGrowth b low high rightExtra high.offset (blkEnd (before ++ gone))
    c' ≤ c ∧ growth.2.1 + growth.2.2 = c - c' ∧
      (searchKey.drop growth.1).take growth.2.1 ++ b.bytes (high.offset + recHdrSize) growth.2.2 = (t.keyBytes.drop c').take (c - c') := by
  intro gone c c' growth
  have hbase : (if high.mtch < low.mtch then high.mtch else low.mtch) = min low.mtch high.mtch := by split <;> omega
  cases rightExtra with
  | false =>
    obtain rfl : behind = t :: rest := by simpa [extra] using hrest
    have hgone : gone = range := by simp [gone, extra]
    have hc : c = lcp (lastKey [] (before ++ range)) t.keyBytes := by rw [← hgone]
    have hcmpc : b.evalCmpc (blkEnd (before ++ gone)) = c := by
      rw [hgone, h.laid.record.2.1, Entry.cmpc, hc]
    have hshared : c' = min c (min low.mtch high.mtch) := by rw [hc]; exact hcut.shared t rfl
    have hsupplied : min low.mtch high.mtch < c → searchKey.take c = t.keyBytes.take c := by rw [hc]; exact hcut.supplied t rfl
    have hgrowth : growth = (min low.mtch high.mtch, c - min low.mtch high.mtch, 0) := by simp [growth, keyGrowth, hbase, hcmpc]
    generalize min low.mtch high.mtch = base at hshared hsupplied hgrowth
    rw [hgrowth]
    refine ⟨by omega, by simp only; omega, ?_⟩
    by_cases hlt : base < c
    · rw [show c' = base by omega]
      simpa [GdsBlk.bytes] using drop_take_eq (hsupplied hlt) base
    · simp [GdsBlk.bytes, show c - base = 0 by omega, show c - c' = 0 by omega]
  | true =>
    obtain ⟨t₀, behind, rfl⟩ := List.exists_cons_of_ne_nil (hextra rfl)
    obtain rfl : behind = t :: rest := by simpa [extra] using hrest
    have hgone : before ++ gone = before ++ range ++ [t₀] := by simp [gone, extra]
    have hlast : lastKey [] (before ++ gone) = t₀.keyBytes := by rw [hgone, lastKey_snoc]
    have hl : Laid b blkHdrSize [] (before ++ range ++ [t₀] ++ t :: rest) := by simpa using h.laid
    have hcmpc : b.evalCmpc (blkEnd (before ++ gone)) = c := by
      rw [hgone, hl.record.2.1, Entry.cmpc, ← hgone]
    set c₀ := lcp (lastKey [] (before ++ range)) t₀.keyBytes with hc₀
    have hcmpc₀ : b.evalCmpc high.offset = c₀ := by rw [hcut.highOff, h.laid.record.2.1, Entry.cmpc]
    have hshared : lcp (lastKey [] before) t₀.keyBytes = min c₀ (min low.mtch high.mtch) := hcut.shared t₀ rfl
    have hsupplied : min low.mtch high.mtch < c₀ → searchKey.take c₀ = t₀.keyBytes.take c₀ := hcut.supplied t₀ rfl
    have hc' : c' = min (min c₀ (min low.mtch high.mtch)) c := by
      rw [← hshared]
      show lcp (lastKey [] before) t.keyBytes = min _ (lcp (lastKey [] (before ++ gone)) t.keyBytes)
      rw [hlast]
      exact h.contents.lcp_skip
    have hct : t₀.keyBytes.take c = t.keyBytes.take c := by
      rw [show c = lcp t₀.keyBytes t.keyBytes by rw [← hlast]]
      exact take_eq_of_le_lcp le_rfl
    have hbytes : b.bytes (high.offset + recHdrSize) (c - c₀) = (t₀.keyBytes.drop c₀).take (c - c₀) := by
      have hdata := h.laid.record.2.2.1
      rw [show blkEnd (before ++ range) = high.offset from hcut.highOff.symm, Entry.data, Entry.cmpc, GdsBlk.hasBytes_append] at hdata
      have hle : c ≤ t₀.keyBytes.length := by
        rw [← hlast]
        exact lcp_le_left _ _
      rw [← hdata.1, List.length_drop, GdsBlk.take_bytes, Nat.min_eq_left (by omega)]
    generalize min low.mtch high.mtch = base at hbase hsupplied hc'
    have hgrowth : growth = if c₀ ≤ c then (base, c₀ - base, c - c₀)
        else (base, if c₀ - c < c₀ - base then c₀ - base - (c₀ - c) else 0, 0) := by
      simp [growth, keyGrowth, hbase, hcmpc, hcmpc₀]
    rw [hgrowth]
    refine ⟨by omega, ?_, ?_⟩
    · split
      · simp only
        omega
      · simp only
        split <;> omega
    · split
      · next hle =>
        rw [hbytes]
        exact regrow_two hle hsupplied hct hc'
      · next hlt =>
        simp only [GdsBlk.bytes, List.range_zero, List.map_nil, List.append_nil]
        exact regrow_cut (by omega) hsupplied hct hc'

end Growth

/-! ## The pieces of the new block -/

variable {prior : List UInt8}

/-- The entries at the start of a block, in their bytes. -/
theorem Laid.enc_prefix {b : GdsBlk} {off : Nat} {pre post : List Entry} (h : Laid b off prior (pre ++ post)) :
    Enc (b.bytes off (endOf off prior pre - off)) prior pre := by
  obtain ⟨-, henc⟩ := laid_iff_enc.1 h
  obtain ⟨l₁, l₂, heq, h1, -⟩ := enc_append.1 henc
  have hlen := h1.length off
  have htotal := congrArg List.length heq
  rw [GdsBlk.length_bytes, List.length_append] at htotal
  rw [show endOf off prior pre - off = l₁.length by omega]
  rw [show b.bsiz - off = l₁.length + l₂.length by omega, GdsBlk.bytes_add] at heq
  rw [(List.append_inj heq (by simp)).1]
  exact h1

/-- The entries at the end of a block, in their bytes. -/
theorem Laid.enc_suffix {b : GdsBlk} {pre post : List Entry} (h : Laid b blkHdrSize [] (pre ++ post)) :
    Enc (b.bytes (blkEnd pre) (b.bsiz - blkEnd pre)) (lastKey [] pre) post := (laid_iff_enc.1 h.append).2

/-- Only the compression count of the first record depends on the key before. -/
theorem Enc.reprior {l prior' : List UInt8} {e : Entry} {es : List Entry} (h : Enc l prior (e :: es))
    (hc : e.cmpc prior' = e.cmpc prior) : Enc l prior' (e :: es) := by
  obtain ⟨hd, rest, hlen, heq, hrsiz, hcmpc, hrest⟩ := h
  have hdata : e.data prior' = e.data prior := by rw [Entry.data, Entry.data, hc]
  exact ⟨hd, rest, hlen, by rw [hdata, heq], by rw [hrsiz, Entry.size, Entry.size, hdata], by rw [hcmpc, hc], hrest⟩

/-- The size of a record behind another key that supplies less. -/
theorem Entry.size_of_cmpc_le (e : Entry) {prior' : List UInt8} (h : e.cmpc prior' ≤ e.cmpc prior) :
    e.size prior' = e.size prior + (e.cmpc prior - e.cmpc prior') := by
  have hlen : e.cmpc prior ≤ e.keyBytes.length := lcp_le_right _ _
  simp only [Entry.size, Entry.data, List.length_append, List.length_drop]
  omega

/-- The record behind the range grows by no more than the range has taken. -/
theorem Contents.growth_le {level0 : Bool} {n : Nat} {gone rest : List Entry} {t : Entry}
    (h : Contents level0 n prior (gone ++ t :: rest)) (off : Nat) :
    off + lcp (lastKey prior gone) t.keyBytes ≤ endOf off prior gone + lcp prior t.keyBytes := by
  induction gone generalizing off prior with
  | nil => exact le_rfl
  | cons e gone ih =>
    obtain ⟨k, hk⟩ := h.key_of_append (by simp) (e := e) (by simp)
    simp only [List.cons_append, Contents, hk] at h
    have hkb : e.keyBytes = k := by simp [Entry.keyBytes, hk]
    have hrest := ih h.2.2.2 (off + e.size prior)
    have hsize : e.size prior = recHdrSize + (k.length - lcp prior k + e.val.length) := by
      simp [Entry.size, Entry.data, Entry.cmpc, hkb]
    have hstep : lcp k t.keyBytes ≤ lcp prior t.keyBytes + (k.length - lcp prior k) := by
      cases hkt : t.key with
      | none => simp [Entry.keyBytes, hkt]
      | some kt =>
        have hlt := h.2.2.2.prior_lt (e := t) (by simp) hkt
        have hout : lcp prior kt = min (lcp prior k) (lcp k kt) := lcp_of_le_of_le h.2.1.le hlt.le
        have hle := lcp_le_left k kt
        simp only [Entry.keyBytes, hkt, Option.getD_some]
        omega
    rw [endOf, lastKey, hkb]
    omega

theorem segBytes_append (b : GdsBlk) (s t : List Seg) : segBytes b (s ++ t) = segBytes b s ++ segBytes b t := List.flatMap_append

/-- A new header, the bytes for the key, and the rest of the block. -/
theorem segBytes_grown (b : GdsBlk) (hdr searchKey : List UInt8) (growth : Nat × Nat × Nat) (o o' n : Nat) :
    segBytes b ([.lit hdr] ++ (if growth.2.1 ≠ 0 then [.lit ((searchKey.drop growth.1).take growth.2.1)] else []) ++
        (if growth.2.2 ≠ 0 then [.buf o growth.2.2] else []) ++ [.buf o' n]) =
      hdr ++ ((searchKey.drop growth.1).take growth.2.1 ++ b.bytes o growth.2.2) ++ b.bytes o' n := by
  obtain ⟨base, len, prev⟩ := growth
  have h1 : segBytes b (if len ≠ 0 then [.lit ((searchKey.drop base).take len)] else []) = (searchKey.drop base).take len := by
    split
    · simp [segBytes, Seg.bytes]
    · next h => simp [segBytes, not_not.1 h]
  have h2 : segBytes b (if prev ≠ 0 then [.buf o prev] else []) = b.bytes o prev := by
    split
    · simp [segBytes, Seg.bytes]
    · next h => simp [segBytes, not_not.1 h, GdsBlk.bytes]
  simp only [segBytes_append, h1, h2]
  simp [segBytes, Seg.bytes]

theorem Contents.cmpc_le {level0 : Bool} {n : Nat} {gone rest : List Entry} {t : Entry}
    (h : Contents level0 n prior (gone ++ t :: rest)) : t.cmpc prior ≤ t.cmpc (lastKey prior gone) := by
  cases hk : t.key with
  | none => simp [Entry.cmpc, Entry.keyBytes, hk]
  | some k =>
    have hlt := (h.append (by simp)).prior_lt (e := t) (by simp) hk
    have hout : lcp prior k = min (lcp prior (lastKey prior gone)) (lcp (lastKey prior gone) k) :=
      lcp_of_le_of_le (h.le_lastKey (by simp)) hlt.le
    simp only [Entry.cmpc, Entry.keyBytes, hk, Option.getD_some]
    omega

section Segments

variable {env : KillEnv} {b : GdsBlk} {searchKey : List UInt8} {low high : SrchRec} {rightExtra : Bool}
  {before range behind : List Entry}

theorem evalCmpc_le (b : GdsBlk) (rp : Nat) : b.evalCmpc rp ≤ 1020 := by
  rw [← (hdr_bytes b rp).2]
  exact hdrCmpc_le _

/-- The records behind the range. -/
theorem rightSegs_enc (env : KillEnv) (hcut : Cut searchKey low high before range behind) (h : WfBlk b (before ++ range ++ behind))
    (hextra : rightExtra = true → behind ≠ []) (hsz : b.bsiz < 65536) :
    let right := blkEnd (before ++ (range ++ behind.take (extra rightExtra)))
    Enc (segBytes b (rightSegs env b searchKey high.offset right (keyGrowth b low high rightExtra high.offset right)))
      (lastKey [] before) (behind.drop (extra rightExtra)) := by
  intro right
  set gone := range ++ behind.take (extra rightExtra) with hgone
  have hsplit : before ++ range ++ behind = before ++ gone ++ behind.drop (extra rightExtra) := by
    rw [hgone]
    simp
  have hl : Laid b blkHdrSize [] (before ++ gone ++ behind.drop (extra rightExtra)) := hsplit ▸ h.laid
  have hc : Contents (decide (b.levl = 0)) (sizeofBlkId b.longBlkId) [] (before ++ gone ++ behind.drop (extra rightExtra)) :=
    hsplit ▸ h.contents
  cases hrest : behind.drop (extra rightExtra) with
  | nil =>
    rw [hrest, List.append_nil] at hl
    have hright : right = b.bsiz := hl.end_eq
    simp [rightSegs, hright, segBytes, Enc]
  | cons t rest =>
    rw [hrest] at hl hc
    obtain ⟨hcle, hgrow, hsupplied⟩ := keyGrowth_spec hcut h hextra hrest
    set growth := keyGrowth b low high rightExtra high.offset right with hgrowth
    set c := lcp (lastKey [] (before ++ gone)) t.keyBytes with hcdef
    set c' := lcp (lastKey [] before) t.keyBytes with hcdef'
    have hlt : right < b.bsiz := hl.append.off_lt (by simp)
    have hrec := hl.record
    have hright : blkEnd (before ++ gone) = right := rfl
    have henc := hl.enc_suffix
    have hgle : right - blkEnd before + c' ≥ c := by
      have hc' := hc
      rw [List.append_assoc] at hc'
      have hle := (hc'.append (by simp)).growth_le (blkEnd before)
      rw [← lastKey_append, ← blkEnd_append, ← hcdef, ← hcdef'] at hle
      omega
    simp only [rightSegs, if_neg hlt.ne, hgrow]
    by_cases hzero : c - c' = 0
    · rw [if_pos hzero]
      simp only [segBytes, List.flatMap_cons, List.flatMap_nil, List.append_nil, Seg.bytes]
      refine henc.reprior ?_
      rw [Entry.cmpc, Entry.cmpc]
      omega
    · rw [if_neg hzero]
      have hbytes := segBytes_grown b (recHdr env (b.rsiz right + (c - c')) (b.evalCmpc right - (c - c'))) searchKey growth
        (high.offset + recHdrSize) (right + recHdrSize) (b.bsiz - (right + recHdrSize))
      rw [hbytes, hsupplied]
      obtain ⟨hd, rest', hlen, heq, -, -, hrest'⟩ := henc
      have htotal := congrArg List.length heq
      rw [GdsBlk.length_bytes, List.length_append, List.length_append] at htotal
      rw [show b.bsiz - right = recHdrSize + (b.bsiz - (right + recHdrSize)) by omega, GdsBlk.bytes_add, List.append_assoc] at heq
      rw [(List.append_inj heq (by rw [GdsBlk.length_bytes, hlen])).2]
      have hdata : t.data (lastKey [] before) = (t.keyBytes.drop c').take (c - c') ++ t.data (lastKey [] (before ++ gone)) := by
        rw [Entry.data, Entry.data, Entry.cmpc, Entry.cmpc, ← hcdef', ← List.append_assoc]
        congr 1
        conv_lhs => rw [← List.take_append_drop (c - c') (t.keyBytes.drop c'), List.drop_drop, show c' + (c - c') = c by omega]
      have hsize : t.size (lastKey [] before) = t.size (lastKey [] (before ++ gone)) + (c - c') := t.size_of_cmpc_le hcle
      have hrsiz : b.rsiz right + (c - c') = t.size (lastKey [] before) := by rw [hrec.1, hsize]
      have hcmpc : b.evalCmpc right - (c - c') = t.cmpc (lastKey [] before) := by
        rw [hrec.2.1, Entry.cmpc, Entry.cmpc, ← hcdef']
        omega
      have hbig : b.rsiz right + (c - c') < 65536 := by
        omega
      obtain ⟨h1, h2, h3⟩ := recHdr_spec env hbig (show b.evalCmpc right - (c - c') ≤ 1020 from (Nat.sub_le _ _).trans (evalCmpc_le b right))
      refine ⟨_, rest', h1, ?_, h2.trans hrsiz, h3.trans hcmpc, hrest'⟩
      rw [hdata]
      simp only [List.append_assoc]

/-- The records before the range, where records are left behind it or the block is a leaf. -/
theorem leftSegs_enc {es : List Entry} (hl : Laid b blkHdrSize [] (before ++ es)) {leftPtr rightPtr : Nat}
    (hright : rightPtr ≠ b.bsiz ∨ b.levl = 0) :
    Enc (segBytes b (leftSegs env b leftPtr (blkEnd before) rightPtr)) [] before := by
  have henc := hl.enc_prefix
  rw [leftSegs]
  split
  · next hle =>
    rw [show blkEnd before - blkHdrSize = 0 by omega] at henc
    exact henc
  · simpa [segBytes, Seg.bytes] using henc

/-- The last record before the range becomes the star-key record where nothing is left behind it. -/
theorem leftSegs_star {pre es : List Entry} {e : Entry} (hl : Laid b blkHdrSize [] (pre ++ e :: es))
    (hval : e.val.length = sizeofBlkId b.longBlkId) (hlevl : b.levl ≠ 0) :
    Enc (segBytes b (leftSegs env b (blkEnd pre) (blkEnd (pre ++ [e])) b.bsiz)) [] (pre ++ [⟨none, e.val⟩]) := by
  have henc := hl.enc_prefix
  obtain ⟨hrsiz, -, hdata, -⟩ := hl.record
  have hdel : ¬blkEnd (pre ++ [e]) ≤ blkHdrSize := by
    have hlt : blkHdrSize < blkEnd (pre ++ [e]) := endOf_lt_of_ne_nil _ _ (by simp)
    omega
  have hpre : segBytes b (if blkHdrSize < blkEnd pre then [.buf blkHdrSize (blkEnd pre - blkHdrSize)] else []) =
      b.bytes blkHdrSize (blkEnd pre - blkHdrSize) := by
    split
    · simp [segBytes, Seg.bytes]
    · next h => simp [segBytes, GdsBlk.bytes, show blkEnd pre - blkHdrSize = 0 by omega]
  -- the block number is at the end of the record
  have hslot : b.bytes (blkEnd pre + b.rsiz (blkEnd pre) - sizeofBlkId b.longBlkId)
      (sizeofBlkId b.longBlkId) = e.val := by
    rw [Entry.data, GdsBlk.hasBytes_append] at hdata
    have h2 := hdata.2
    rw [← h2, hrsiz, Entry.size, Entry.data, List.length_append, hval]
    congr 1
    omega
  have hstar : (⟨none, e.val⟩ : Entry).data (lastKey [] pre) = e.val := by simp [Entry.data, Entry.keyBytes]
  have hsmall : bstarRecSize b.longBlkId < 65536 := by
    cases b.longBlkId <;> decide
  obtain ⟨h1, h2, h3⟩ := recHdr_spec env hsmall (Nat.zero_le 1020)
  rw [leftSegs, if_neg hdel, if_neg (by simp [hlevl]), segBytes_append, hpre]
  refine enc_append.2 ⟨_, _, rfl, henc, recHdr env (bstarRecSize b.longBlkId) 0, [], h1, ?_, h2.trans ?_, h3.trans ?_, rfl⟩
  · simp [segBytes, Seg.bytes, hslot, hstar]
  · rw [Entry.size, hstar, hval, bstarRecSize]
  · simp [Entry.cmpc, Entry.keyBytes]

end Segments

/-! ## The new block -/

theorem starLast_snoc (pre : List Entry) (e : Entry) : starLast (pre ++ [e]) = pre ++ [⟨none, e.val⟩] := by
  induction pre with
  | nil => rfl
  | cons a pre ih =>
    cases hp : pre ++ [e] with
    | nil => simp at hp
    | cons a' l =>
      rw [List.cons_append, hp, starLast, ← hp, ih]
      rfl

variable {es : List Entry} {level0 : Bool} {n : Nat} {prior : List UInt8}

/-- A list that ends as an index block does is as it should be. -/
theorem Contents.closeBlk_eq (h : Contents level0 n prior es) : closeBlk level0 es = es := by
  cases level0 with
  | true => rfl
  | false =>
    rw [closeBlk, if_neg (by simp)]
    induction es generalizing prior with
    | nil => rfl
    | cons e es ih =>
      cases hk : e.key with
      | none =>
        simp only [Contents, hk] at h
        obtain ⟨-, rfl, -⟩ := h
        rw [starLast, ← hk]
      | some k =>
        simp only [Contents, hk] at h
        cases es with
        | nil => simp [Contents] at h
        | cons e' es => rw [starLast, ih h.2.2.2]

/-- What stands behind the same entries may be exchanged. -/
theorem Contents.replace {pre post post' : List Entry} (hpost : post ≠ [])
    (h : Contents level0 n prior (pre ++ post)) (h' : Contents level0 n (lastKey prior pre) post') :
    Contents level0 n prior (pre ++ post') := by
  induction pre generalizing prior with
  | nil => exact h'
  | cons e pre ih =>
    obtain ⟨k, hk⟩ := h.key_of_append hpost (e := e) (by simp)
    have hkb : e.keyBytes = k := by simp [Entry.keyBytes, hk]
    rw [lastKey, hkb] at h'
    simp only [List.cons_append, Contents, hk] at h ⊢
    exact ⟨h.1, h.2.1, h.2.2.1, ih h.2.2.2 h'⟩

theorem Contents.mono {prior' : List UInt8} (h : Contents level0 n prior es) (hle : prior' ≤ prior) : Contents level0 n prior' es := by
  cases es with
  | nil => exact h
  | cons e es =>
    cases hk : e.key with
    | none => simpa only [Contents, hk] using h
    | some k =>
      simp only [Contents, hk] at h ⊢
      exact ⟨h.1, hle.trans_lt h.2.1, h.2.2⟩

/-- In an index block every entry holds a block number. -/
theorem Contents.val_length (h : Contents false n prior es) {e : Entry} (he : e ∈ es) : e.val.length = n := by
  induction es generalizing prior with
  | nil => simp at he
  | cons e' es ih =>
    cases hk : e'.key with
    | none =>
      simp only [Contents, hk] at h
      obtain ⟨-, rfl, hval⟩ := h
      obtain rfl : e = e' := by simpa using he
      exact hval
    | some k =>
      simp only [Contents, hk] at h
      rcases List.mem_cons.1 he with rfl | he
      · exact h.2.2.1 trivial
      · exact ih h.2.2.2 he

/-- Entries with a range left out in front of others. -/
theorem Contents.skip {before gone rest : List Entry}
    (h : Contents level0 n prior (before ++ gone ++ rest)) (hrest : rest ≠ [] ∨ level0 = true) :
    Contents level0 n prior (before ++ rest) := by
  rw [List.append_assoc] at h
  by_cases hnil : rest = []
  · obtain rfl : level0 = true := hrest.resolve_left (by simp [hnil])
    subst hnil
    by_cases hgone : gone = []
    · subst hgone
      exact h
    · rw [List.append_nil] at h
      exact h.replace hgone rfl
  · have hgr : gone ++ rest ≠ [] := by simp [hnil]
    exact h.replace hgr (((h.append hgr).append hnil).mono ((h.append hgr).le_lastKey hnil))

/-- Entries with a range left out are the contents of a block again. -/
theorem Contents.cut {before gone rest : List Entry} (h : Contents level0 n prior (before ++ gone ++ rest)) (hleft : before ++ rest ≠ []) :
    Contents level0 n prior (closeBlk level0 (before ++ rest)) := by
  by_cases hrest : rest ≠ [] ∨ level0 = true
  · have hc := h.skip hrest
    rw [hc.closeBlk_eq]
    exact hc
  · obtain ⟨hnil, hlevel⟩ := not_or.1 hrest
    obtain rfl := not_not.1 hnil
    obtain rfl := Bool.eq_false_iff.2 hlevel
    rw [List.append_nil] at h hleft ⊢
    rcases List.eq_nil_or_concat before with rfl | ⟨pre, e, rfl⟩
    · exact absurd rfl hleft
    · rw [List.concat_eq_append] at h ⊢
      rw [closeBlk, starLast_snoc]
      have hval := h.val_length (e := e) (by simp)
      rw [List.append_assoc] at h
      exact h.replace (by simp) ⟨rfl, rfl, hval⟩

/-- What is left of a block after a call of a kill. -/
structure Left (b : GdsBlk) (searchKey : List UInt8) (low high : SrchRec) (rightExtra : Bool) (before gone rest : List Entry) : Prop where
  wf : WfBlk b (before ++ gone ++ rest)
  cut : ∃ range behind, gone = range ++ behind.take (extra rightExtra) ∧ rest = behind.drop (extra rightExtra) ∧
    (rightExtra = true → behind ≠ []) ∧ Cut searchKey low high before range behind

section New

variable {env : KillEnv} {b : GdsBlk} {searchKey : List UInt8} {low high : SrchRec} {rightExtra : Bool}
  {before gone rest : List Entry}

/-- All segments of the new block. -/
def killSegs (env : KillEnv) (b : GdsBlk) (searchKey : List UInt8) (low high : SrchRec) (rightExtra : Bool) (delPtr rightPtr : Nat) :
    List Seg :=
  leftSegs env b low.offset delPtr rightPtr ++
    rightSegs env b searchKey high.offset rightPtr (keyGrowth b low high rightExtra high.offset rightPtr)

/-- The segments of the new block encode the entries that are left. -/
theorem killSegs_enc (env : KillEnv) (h : Left b searchKey low high rightExtra before gone rest) (hleft : before ++ rest ≠ []) (hsz : b.bsiz < 65536) :
    Enc (segBytes b (killSegs env b searchKey low high rightExtra (blkEnd before) (blkEnd (before ++ gone))))
      [] (closeBlk (decide (b.levl = 0)) (before ++ rest)) := by
  obtain ⟨range, behind, hgone, hrest, hextra, hcut⟩ := h.cut
  have hsplit : before ++ range ++ behind = before ++ gone ++ rest := by
    rw [hgone, hrest]
    simp
  have hright := rightSegs_enc env hcut (hsplit ▸ h.wf) hextra hsz
  simp only [← hgone, ← hrest] at hright
  have hl := h.wf.laid
  rw [killSegs, segBytes_append]
  by_cases hcase : rest ≠ [] ∨ b.levl = 0
  · have hc := h.wf.contents.skip (hcase.imp_right fun h => by simpa using h)
    rw [hc.closeBlk_eq]
    refine enc_append.2 ⟨_, _, rfl, leftSegs_enc (by rw [← List.append_assoc]; exact hl) ?_, hright⟩
    refine hcase.imp_left fun hne => ?_
    exact (hl.append.off_lt hne).ne
  · obtain ⟨hnil, hlevl⟩ := not_or.1 hcase
    obtain rfl := not_not.1 hnil
    rw [List.append_nil] at hleft hl ⊢
    rcases List.eq_nil_or_concat before with rfl | ⟨pre, e, rfl⟩
    · exact absurd rfl hleft
    · rw [List.concat_eq_append] at hl hright ⊢
      have hval : e.val.length = sizeofBlkId b.longBlkId := by
        have hc := h.wf.contents
        rw [decide_eq_false hlevl] at hc
        exact hc.val_length (by simp)
      have hend : blkEnd (pre ++ [e] ++ gone) = b.bsiz := hl.end_eq
      rw [hend] at hright ⊢
      rw [hright, List.append_nil, hcut.lowOff, List.concat_eq_append, lastOff_snoc, closeBlk, if_neg (by simpa using hlevl),
        starLast_snoc]
      rw [List.append_assoc] at hl
      exact leftSegs_star hl hval hlevl

/-- The end of the first record behind the range moves down by what the range has taken, less what the record grows by. -/
theorem Contents.end_shift {level0 : Bool} {n : Nat} {t : Entry} {rest : List Entry}
    (h : Contents level0 n [] (before ++ gone ++ t :: rest)) : t.cmpc (lastKey [] before) ≤ t.cmpc (lastKey [] (before ++ gone)) ∧
    t.cmpc (lastKey [] (before ++ gone)) - t.cmpc (lastKey [] before) ≤ blkEnd (before ++ gone) - blkEnd before ∧
    blkEnd before + t.size (lastKey [] before) + (blkEnd (before ++ gone) - blkEnd before -
          (t.cmpc (lastKey [] (before ++ gone)) - t.cmpc (lastKey [] before))) =
      blkEnd (before ++ gone) + t.size (lastKey [] (before ++ gone)) := by
  rw [List.append_assoc] at h
  have hc := h.append (by simp)
  have hgrow := hc.growth_le (blkEnd before)
  have hle := endOf_ge (blkEnd before) (lastKey [] before) gone
  rw [← lastKey_append, ← blkEnd_append] at hgrow
  have hcmpc : t.cmpc (lastKey [] before) ≤ t.cmpc (lastKey [] (before ++ gone)) := by
    rw [lastKey_append]
    exact hc.cmpc_le
  have hsize := t.size_of_cmpc_le hcmpc
  rw [Entry.cmpc, Entry.cmpc] at hcmpc hsize ⊢
  omega

/-- The new block is not larger than the old one. -/
theorem Left.size_le (h : Left b searchKey low high rightExtra before gone rest) (hleft : before ++ rest ≠ []) :
    blkEnd (closeBlk (decide (b.levl = 0)) (before ++ rest)) ≤ b.bsiz := by
  have hend : blkEnd (before ++ gone ++ rest) = b.bsiz := h.wf.laid.end_eq
  rw [← hend]
  by_cases hcase : rest ≠ [] ∨ b.levl = 0
  · rw [(h.wf.contents.skip (hcase.imp_right fun h => by simpa using h)).closeBlk_eq]
    cases rest with
    | nil =>
      rw [List.append_nil, List.append_nil, blkEnd_append]
      exact endOf_ge _ _ _
    | cons t rest =>
      obtain ⟨-, -, hshift⟩ := h.wf.contents.end_shift
      rw [blkEnd_append before, blkEnd_append (before ++ gone), endOf, endOf, ← hshift]
      exact (Nat.le_add_right _ _).trans_eq (endOf_shift _ _ _ _).symm
  · obtain ⟨hnil, hlevl⟩ := not_or.1 hcase
    obtain rfl := not_not.1 hnil
    rw [List.append_nil] at hleft ⊢
    rcases List.eq_nil_or_concat before with rfl | ⟨pre, e, rfl⟩
    · exact absurd rfl hleft
    · rw [List.concat_eq_append, closeBlk, if_neg (by simpa using hlevl), starLast_snoc, List.append_nil, blkEnd_append (pre ++ [e]),
        blkEnd_snoc]
      refine le_trans ?_ (endOf_ge _ _ _)
      rw [blkEnd_snoc]
      simp only [Entry.size, Entry.data, List.length_append, Entry.keyBytes, Option.getD_none, List.drop_nil, List.length_nil]
      omega

/-- What is built of the segments is the block with the entries that are left. -/
theorem killSegs_wf (env : KillEnv) (h : Left b searchKey low high rightExtra before gone rest) (hleft : before ++ rest ≠ []) (hsz : b.bsiz < 65536) :
    let segs := killSegs env b searchKey low high rightExtra (blkEnd before) (blkEnd (before ++ gone))
    WfBlk (buildBlk b b.levl segs) (closeBlk (decide (b.levl = 0)) (before ++ rest)) ∧ blkSegCnt segs ≤ b.bsiz := by
  intro segs
  have henc := killSegs_enc env h hleft hsz
  refine ⟨⟨buildBlk_laid henc, h.wf.contents.cut hleft, fun hlevl => ?_⟩, ?_⟩
  · have hlevl' : b.levl = 0 := hlevl
    rw [closeBlk, if_pos (by simpa using hlevl')]
    intro e he
    refine h.wf.start hlevl' e ?_
    simp only [List.mem_append] at he ⊢
    tauto
  · rw [segBytes_length b, ← henc.length]
    exact h.size_le hleft

end New

end Gtm
