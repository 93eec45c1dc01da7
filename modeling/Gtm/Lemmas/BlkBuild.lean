import Gtm.Gds.BlkBuild
import Gtm.Lemmas.KillRebuild

/-!
# Moving segments

What a pass of `gvcst_blk_build` over some segments leaves: their bytes, one after the other, as the old block held them, and the pieces
that are still to be moved intact. `Intact` is what carries both passes.
-/

namespace Gtm

/-! ## Writing bytes -/

theorem overwrite_nil (byte : Nat → UInt8) (ptr : Nat) : overwrite byte ptr [] = byte := by
  funext i
  rw [overwrite, if_neg (by simp)]

theorem overwrite_append (byte : Nat → UInt8) (ptr : Nat) (l l' : List UInt8) :
    overwrite (overwrite byte ptr l) (ptr + l.length) l' = overwrite byte ptr (l ++ l') := by
  funext i
  simp only [overwrite, List.length_append]
  by_cases h : ptr + l.length ≤ i
  · rw [List.getD_append_right _ _ _ _ (by omega), show i - ptr - l.length = i - (ptr + l.length) by omega]
    split_ifs <;> first | rfl | omega
  · by_cases h' : ptr ≤ i
    · rw [List.getD_append _ _ _ _ (by omega)]
      split_ifs <;> first | rfl | omega
    · split_ifs <;> first | rfl | omega

/-- The bytes behind may be written first. -/
theorem overwrite_append_back (byte : Nat → UInt8) (ptr : Nat) (l l' : List UInt8) :
    overwrite (overwrite byte (ptr + l.length) l') ptr l = overwrite byte ptr (l ++ l') := by
  rw [← overwrite_append]
  funext i
  simp only [overwrite]
  split_ifs <;> first | rfl | omega

theorem overwrite_of_lt {byte : Nat → UInt8} {ptr i : Nat} {l : List UInt8} (h : i < ptr ∨ ptr + l.length ≤ i) :
    overwrite byte ptr l i = byte i := if_neg (by omega)

/-! ## Pieces of the old block -/

@[simp] theorem Seg.length_bytes (seg : Seg) (b : GdsBlk) : (seg.bytes b).length = seg.len := by
  cases seg <;> simp [Seg.bytes, Seg.len, GdsBlk.bytes]

theorem segBytes_cons (b : GdsBlk) (seg : Seg) (segs : List Seg) : segBytes b (seg :: segs) = seg.bytes b ++ segBytes b segs := rfl

theorem length_segBytes (b : GdsBlk) (segs : List Seg) : (segBytes b segs).length = (segs.map Seg.len).sum :=
  (Nat.add_left_cancel (segBytes_length b segs)).symm

/-- The pieces of the old block `b₀` that are among the segments can still be read. -/
def Intact (old : Option GdsBlk) (b₀ b : GdsBlk) (segs : List Seg) : Prop :=
  ∀ off len, .buf off len ∈ segs → ∀ i < len, (old.getD b).byte (off + i) = b₀.byte (off + i)

section Passes

variable {old : Option GdsBlk} {b₀ b : GdsBlk} {seg : Seg} {segs pre post : List Seg} {ptr : Nat}

theorem Intact.bytes_eq (h : Intact old b₀ b segs) (hs : seg ∈ segs) : seg.bytes (old.getD b) = seg.bytes b₀ := by
  cases seg with
  | lit l => rfl
  | buf off len => exact List.map_congr_left fun i hi => h off len hs i (List.mem_range.1 hi)

theorem Intact.mono (h : Intact old b₀ b segs) (hs : pre ⊆ segs) : Intact old b₀ b pre := fun off len hm => h off len (hs hm)

/-- Bytes may be written that belong to none of the pieces, and all bytes if these are in another buffer. -/
theorem Intact.overwrite {l : List UInt8} (h : Intact old b₀ b segs)
    (hd : old = none → ∀ off len, .buf off len ∈ segs → off + len ≤ ptr ∨ ptr + l.length ≤ off) :
    Intact old b₀ { b with byte := overwrite b.byte ptr l } segs := by
  intro off len hm i hi
  rw [← h off len hm i hi]
  cases old with
  | some o => rfl
  | none => exact overwrite_of_lt (by rcases hd rfl off len hm with hd | hd <;> omega)

/-- The pass from the first segment on. -/
theorem forwardCopy_eq (h : Intact old b₀ b segs)
    (hl : old = none → ∀ pre off len post, segs = pre ++ .buf off len :: post → pre ≠ [] → ptr + (pre.map Seg.len).sum ≤ off) :
    forwardCopy old segs ptr b = { b with byte := overwrite b.byte ptr (segBytes b₀ segs) } := by
  induction segs generalizing ptr b with
  | nil => simp [forwardCopy, segBytes, overwrite_nil]
  | cons seg segs ih =>
    have hseg : moveSeg old seg ptr b = { b with byte := Gtm.overwrite b.byte ptr (seg.bytes b₀) } := by
      rw [moveSeg, h.bytes_eq (by simp)]
    -- the pieces behind the first segment are not left of where it goes to
    have hrest : Intact old b₀ (moveSeg old seg ptr b) segs := by
      refine (h.mono (by simp)).overwrite fun ho off len hm => .inr ?_
      obtain ⟨p, q, rfl⟩ := List.append_of_mem hm
      have hle := hl ho (seg :: p) off len q rfl (by simp)
      rw [List.map_cons, List.sum_cons] at hle
      rw [Seg.length_bytes]
      omega
    rw [forwardCopy, ih hrest fun ho p off len q hs hp => ?_, hseg]
    · rw [segBytes_cons, ← overwrite_append, Seg.length_bytes]
    · have hle := hl ho (seg :: p) off len q (by rw [hs]; rfl) (by simp)
      rw [List.map_cons, List.sum_cons] at hle
      omega

/-- The pass from the last segment on. -/
theorem backwardCopy_eq (h : Intact old b₀ b segs)
    (hr : old = none → ∀ pre off len post, segs = pre ++ .buf off len :: post → post ≠ [] → off ≤ ptr + (pre.map Seg.len).sum) :
    backwardCopy old segs.reverse (ptr + (segs.map Seg.len).sum) b = { b with byte := overwrite b.byte ptr (segBytes b₀ segs) } := by
  induction segs using List.reverseRecOn generalizing b with
  | nil => simp [backwardCopy, segBytes, overwrite_nil]
  | append_singleton segs seg ih =>
    have hend : ptr + ((segs ++ [seg]).map Seg.len).sum - seg.len = ptr + (segs.map Seg.len).sum := by
      simp only [List.map_append, List.map_cons, List.map_nil, List.sum_append, List.sum_cons, List.sum_nil]
      omega
    have hseg : moveSeg old seg (ptr + (segs.map Seg.len).sum) b =
        { b with byte := Gtm.overwrite b.byte (ptr + (segs.map Seg.len).sum) (seg.bytes b₀) } := by
      rw [moveSeg, h.bytes_eq (by simp)]
    -- the pieces before the last segment end where it goes to
    have hrest : Intact old b₀ (moveSeg old seg (ptr + (segs.map Seg.len).sum) b) segs := by
      refine (h.mono (by simp)).overwrite fun ho off len hm => .inl ?_
      obtain ⟨p, q, rfl⟩ := List.append_of_mem hm
      have hle := hr ho p off len (q ++ [seg]) (by simp) (by simp)
      simp only [List.map_append, List.map_cons, List.sum_append, List.sum_cons, Seg.len]
      omega
    rw [List.reverse_concat, backwardCopy, hend, ih hrest fun ho p off len q hs hq => hr ho p off len (q ++ [seg]) (by simp [hs]) (by simp),
      hseg]
    rw [← length_segBytes b₀ segs, overwrite_append_back]
    simp [segBytes]

/-- In the pass forward the pieces behind some segments are intact when these were moved. -/
theorem forwardCopy_intact (h : Intact old b₀ b (pre ++ post))
    (hl : old = none → ∀ p off len q, pre ++ post = p ++ .buf off len :: q → p ≠ [] → ptr + (p.map Seg.len).sum ≤ off) :
    Intact old b₀ (forwardCopy old pre ptr b) post := by
  rw [forwardCopy_eq (h.mono (by simp)) fun ho p off len q hs hp => hl ho p off len (q ++ post) (by simp [hs]) hp]
  rcases List.eq_nil_or_concat pre with rfl | ⟨p, seg, rfl⟩
  · simpa [segBytes, overwrite_nil] using h
  · refine (h.mono (by simp)).overwrite fun ho off len hm => .inr ?_
    obtain ⟨q, r, rfl⟩ := List.append_of_mem hm
    have hle := hl ho (p.concat seg ++ q) off len r (by simp) (by simp)
    simp only [length_segBytes, List.map_append, List.sum_append] at hle ⊢
    omega

/-- In the pass backward the pieces before some segments are intact when these were moved. -/
theorem backwardCopy_intact (h : Intact old b₀ b (pre ++ post))
    (hr : old = none → ∀ p off len q, pre ++ post = p ++ .buf off len :: q → q ≠ [] → off ≤ ptr + (p.map Seg.len).sum) :
    Intact old b₀ (backwardCopy old post.reverse (ptr + ((pre ++ post).map Seg.len).sum) b) pre := by
  have hend : ptr + ((pre ++ post).map Seg.len).sum = ptr + (pre.map Seg.len).sum + (post.map Seg.len).sum := by simp; omega
  rw [hend, backwardCopy_eq (h.mono (by simp)) fun ho p off len q hs hq => ?_]
  · cases post with
    | nil => simpa [segBytes, overwrite_nil] using h
    | cons seg post =>
      refine (h.mono (by simp)).overwrite fun ho off len hm => .inl ?_
      obtain ⟨q, r, rfl⟩ := List.append_of_mem hm
      have hle := hr ho q off len (r ++ seg :: post) (by simp) (by simp)
      simp only [List.map_append, List.map_cons, List.sum_append, List.sum_cons, Seg.len]
      omega
  · have hle := hr ho (pre ++ p) off len q (by rw [hs]; simp) hq
    simp only [List.map_append, List.sum_append] at hle
    omega

end Passes

end Gtm

/-!
## The arrays of the callers

Most callers of `t_write` keep a prefix of the block, insert new records and let the rest follow. `gvcst_kill_blk` inserts the bytes of
keys that were compressed away, and pieces of records: none of these goes to the right, for a record behind the deleted ones grows
by no more than these took.
-/

namespace Gtm

open CommonPrefix

/-! ## Pieces that go to the left -/

/-- Laid from `ptr` on, no piece among the segments goes to the right. -/
def Leftward (ptr : Nat) (segs : List Seg) : Prop :=
  ∀ pre off len post, segs = pre ++ .buf off len :: post → ptr + (pre.map Seg.len).sum ≤ off

section Leftward

variable {ptr : Nat} {seg : Seg} {segs segs' : List Seg}

@[simp] theorem leftward_nil : Leftward ptr [] := fun _ _ _ _ h => by simp at h

theorem leftward_cons : Leftward ptr (seg :: segs) ↔ (∀ off len, seg = .buf off len → ptr ≤ off) ∧ Leftward (ptr + seg.len) segs := by
  constructor
  · intro h
    refine ⟨fun off len hseg => by simpa using h [] off len segs (by rw [hseg]; rfl), fun pre off len post hs => ?_⟩
    have hle := h (seg :: pre) off len post (by rw [hs]; rfl)
    rw [List.map_cons, List.sum_cons] at hle
    omega
  · rintro ⟨hseg, hsegs⟩ pre off len post hs
    cases pre with
    | nil =>
      obtain ⟨rfl, rfl⟩ := List.cons.inj hs
      exact hseg off len rfl
    | cons seg' pre =>
      obtain ⟨rfl, rfl⟩ := List.cons.inj hs
      have hle := hsegs pre off len post rfl
      rw [List.map_cons, List.sum_cons]
      omega

@[simp] theorem leftward_lit_cons {l : List UInt8} : Leftward ptr (.lit l :: segs) ↔ Leftward (ptr + l.length) segs := by
  simp [leftward_cons, Seg.len]

@[simp] theorem leftward_buf_cons {off len : Nat} : Leftward ptr (.buf off len :: segs) ↔ ptr ≤ off ∧ Leftward (ptr + len) segs := by
  simp [leftward_cons, Seg.len]

theorem leftward_append : Leftward ptr (segs ++ segs') ↔ Leftward ptr segs ∧ Leftward (ptr + (segs.map Seg.len).sum) segs' := by
  induction segs generalizing ptr with
  | nil => simp
  | cons seg segs ih => rw [List.cons_append, leftward_cons, ih, leftward_cons, and_assoc, List.map_cons, List.sum_cons, Nat.add_assoc]

/-- The segments may start further to the left. -/
theorem Leftward.mono {ptr' : Nat} (h : Leftward ptr segs) (hle : ptr' ≤ ptr) : Leftward ptr' segs := fun pre off len post hs =>
  (Nat.add_le_add_right hle _).trans (h pre off len post hs)

end Leftward

/-! ## Pieces that go to the right -/

/-- Laid from `ptr` on, no piece among the segments but the last goes to the left. -/
def Rightward (ptr : Nat) (segs : List Seg) : Prop :=
  ∀ pre off len post, segs = pre ++ .buf off len :: post → post ≠ [] → off ≤ ptr + (pre.map Seg.len).sum

section Rightward

variable {ptr : Nat} {seg : Seg} {segs : List Seg}

theorem rightward_cons :
    Rightward ptr (seg :: segs) ↔ (∀ off len, seg = .buf off len → segs ≠ [] → off ≤ ptr) ∧ Rightward (ptr + seg.len) segs := by
  constructor
  · intro h
    refine ⟨fun off len hseg hne => by simpa using h [] off len segs (by rw [hseg]; rfl) hne, fun pre off len post hs hne => ?_⟩
    have hle := h (seg :: pre) off len post (by rw [hs]; rfl) hne
    rw [List.map_cons, List.sum_cons] at hle
    omega
  · rintro ⟨hseg, hsegs⟩ pre off len post hs hne
    cases pre with
    | nil =>
      obtain ⟨rfl, rfl⟩ := List.cons.inj hs
      exact hseg off len rfl hne
    | cons seg' pre =>
      obtain ⟨rfl, rfl⟩ := List.cons.inj hs
      have hle := hsegs pre off len post rfl hne
      rw [List.map_cons, List.sum_cons]
      omega

/-- New bytes and one piece behind them. -/
theorem rightward_new (new : List (List UInt8)) (rest : Option (Nat × Nat)) :
    Rightward ptr (new.map .lit ++ (rest.map fun r => .buf r.1 r.2).toList) := by
  induction new generalizing ptr with
  | nil =>
    cases rest with
    | none => exact fun _ _ _ _ h => by simp at h
    | some r => exact rightward_cons.2 ⟨fun _ _ _ hne => absurd rfl hne, fun _ _ _ _ h => by simp at h⟩
  | cons l new ih => exact rightward_cons.2 ⟨fun _ _ h => by simp at h, ih⟩

end Rightward

/-! ## Arrays that insert -/

/-- A prefix that stays in its place, new bytes, and a piece behind them. -/
def insertSegs (kept : Option Nat) (new : List (List UInt8)) (rest : Option (Nat × Nat)) : List Seg :=
  (kept.map (.buf blkHdrSize)).toList ++ (new.map .lit ++ (rest.map fun r => .buf r.1 r.2).toList)

theorem leftward_new {ptr : Nat} (new : List (List UInt8)) (rest : Option (Nat × Nat))
    (h : ∀ r, rest = some r → ptr + (new.map List.length).sum ≤ r.1) :
    Leftward ptr (new.map .lit ++ (rest.map fun r => .buf r.1 r.2).toList) := by
  induction new generalizing ptr with
  | nil =>
    cases rest with
    | none => exact leftward_nil
    | some r => simpa using h r rfl
  | cons l new ih =>
    refine leftward_lit_cons.2 (ih fun r hr => ?_)
    have hle := h r hr
    rw [List.map_cons, List.sum_cons] at hle
    omega

/-- `gvcst_put`, the splits and merges of a reorganisation and the like write such arrays. The piece behind the new bytes may go to the
right where they are processed backward. -/
theorem callerArray_insert {forwardProcess firstCopy : Bool} {kept : Option Nat} {new : List (List UInt8)} {rest : Option (Nat × Nat)}
    (hkept : firstCopy = false → kept.isSome = true) (hrest : ∀ r, rest = some r → blkHdrSize ≤ r.1)
    (hleft : forwardProcess = true → ∀ r, rest = some r → blkHdrSize + kept.getD 0 + (new.map List.length).sum ≤ r.1) :
    CallerArray forwardProcess firstCopy (insertSegs kept new rest) where
  behind {off len} h := by
    simp only [insertSegs, List.mem_append, Option.mem_toList, Option.map_eq_some_iff, List.mem_map, Seg.buf.injEq] at h
    rcases h with ⟨n, -, rfl, -⟩ | ⟨l, -, h⟩ | ⟨r, hr, rfl, -⟩
    · exact le_rfl
    · cases h
    · exact hrest r hr
  first h := by
    obtain ⟨n, rfl⟩ := Option.isSome_iff_exists.1 (hkept h)
    exact ⟨n, _, rfl⟩
  left {pre post off len} h hs _ := by
    have hall : Leftward blkHdrSize (insertSegs kept new rest) := by
      cases kept with
      | none => exact leftward_new new rest (hleft h)
      | some n => exact leftward_buf_cons.2 ⟨le_rfl, leftward_new new rest (hleft h)⟩
    exact hall pre off len post hs
  right {pre post off len} _ hs hp := by
    have hall : Rightward blkHdrSize (insertSegs kept new rest) := by
      cases kept with
      | none => exact rightward_new new rest
      | some n => exact rightward_cons.2 ⟨fun off len h _ => by cases h; exact le_rfl, rightward_new new rest⟩
    exact hall pre off len post hs hp

/-- Where all pieces are in their places, as in a swap of block numbers, the direction does not matter. -/
theorem callerArray_inPlace {forwardProcess firstCopy : Bool} {segs : List Seg}
    (hfirst : firstCopy = false → ∃ len rest, segs = .buf blkHdrSize len :: rest)
    (h : ∀ pre off len post, segs = pre ++ .buf off len :: post → off = blkSegCnt pre) : CallerArray forwardProcess firstCopy segs where
  behind {off len} hm := by
    obtain ⟨pre, post, hs⟩ := List.append_of_mem hm
    rw [h pre off len post hs, blkSegCnt]
    omega
  first := hfirst
  left {pre post off len} _ hs _ := (h pre off len post hs).ge
  right {pre post off len} _ hs _ := (h pre off len post hs).le

/-! ## The array of a kill -/

section Kill

variable {env : KillEnv} {b : GdsBlk} {searchKey : List UInt8} {low high : SrchRec} {rightExtra : Bool}
  {before range behind gone rest : List Entry}

theorem length_recHdr (env : KillEnv) (rsiz cmpc : Nat) : (recHdr env rsiz cmpc).length = recHdrSize := by
  rw [recHdr, setCmpc]
  split <;> rfl

/-- The bytes of the search key and those of the record at the right end fit in what the range has taken before that record. -/
theorem keyGrowth_prev (hcut : Cut searchKey low high before range behind) (h : WfBlk b (before ++ range ++ behind))
    (hextra : rightExtra = true → behind ≠ []) {rightPtr : Nat} (hprev : (keyGrowth b low high rightExtra high.offset rightPtr).2.2 ≠ 0) :
    blkEnd before + (keyGrowth b low high rightExtra high.offset rightPtr).2.1 ≤ high.offset := by
  cases rightExtra with
  | false => exact absurd rfl hprev
  | true =>
    obtain ⟨t₀, behind, rfl⟩ := List.exists_cons_of_ne_nil (hextra rfl)
    have hbase : (if high.mtch < low.mtch then high.mtch else low.mtch) = min low.mtch high.mtch := by split <;> omega
    have hcmpc : b.evalCmpc high.offset = lcp (lastKey [] (before ++ range)) t₀.keyBytes := by
      rw [hcut.highOff, h.laid.record.2.1, Entry.cmpc]
    have hshared := hcut.shared t₀ rfl
    have hgrow : blkEnd before + lcp (lastKey [] (before ++ range)) t₀.keyBytes ≤ high.offset + lcp (lastKey [] before) t₀.keyBytes := by
      have hc := h.contents
      rw [List.append_assoc] at hc
      have hle := (hc.append (by simp)).growth_le (blkEnd before)
      rwa [← lastKey_append, ← endOf_append, ← hcut.highOff] at hle
    simp only [keyGrowth, if_true, hbase, hcmpc] at hprev ⊢
    split at hprev
    · next hle =>
      rw [if_pos hle]
      simp only
      omega
    · exact absurd rfl hprev

/-- The pieces before the range end where it starts, and none of them goes to the right. -/
theorem leftSegs_leftward (hlow : low.offset = lastOff before) (hl : Laid b blkHdrSize [] (before ++ gone))
    (hval : b.levl ≠ 0 → ∀ e ∈ before, e.val.length = sizeofBlkId b.longBlkId) (rightPtr : Nat) :
    Leftward blkHdrSize (leftSegs env b low.offset (blkEnd before) rightPtr) ∧
      blkSegCnt (leftSegs env b low.offset (blkEnd before) rightPtr) ≤ blkEnd before := by
  have hge := blkEnd_ge before
  rw [leftSegs]
  split
  · exact ⟨leftward_nil, hge⟩
  · split
    · refine ⟨by simp, ?_⟩
      simp only [blkSegCnt, List.map_cons, List.map_nil, List.sum_cons, List.sum_nil, Seg.len]
      omega
    · next hdel hstar =>
      obtain ⟨-, hlevl⟩ := not_or.1 hstar
      rcases List.eq_nil_or_concat before with rfl | ⟨pre, e, rfl⟩
      · exact absurd le_rfl hdel
      · rw [List.concat_eq_append] at hl hlow hval hge ⊢
        rw [List.append_assoc] at hl
        have hrsiz := hl.record.1
        have hpre := blkEnd_ge pre
        have hlen := hval hlevl e (by simp)
        have hsize : recHdrSize + sizeofBlkId b.longBlkId ≤ e.size (lastKey [] pre) := by
          rw [Entry.size, Entry.data, List.length_append]
          omega
        rw [hlow, lastOff_snoc, blkEnd_snoc]
        split
        · simp only [List.cons_append, List.nil_append, leftward_buf_cons, leftward_lit_cons, leftward_nil, blkSegCnt, List.map_cons,
            List.map_nil, List.sum_cons, List.sum_nil, Seg.len, length_recHdr, and_true]
          omega
        · simp only [List.nil_append, leftward_buf_cons, leftward_lit_cons, leftward_nil, blkSegCnt, List.map_cons,
            List.map_nil, List.sum_cons, List.sum_nil, Seg.len, length_recHdr, and_true]
          omega

/-- No piece behind the range goes to the right. -/
theorem rightSegs_leftward (env : KillEnv) (h : Left b searchKey low high rightExtra before gone rest) :
    Leftward (blkEnd before) (rightSegs env b searchKey high.offset (blkEnd (before ++ gone))
      (keyGrowth b low high rightExtra high.offset (blkEnd (before ++ gone)))) := by
  obtain ⟨range, behind, hgone, hrest, hextra, hcut⟩ := h.cut
  have hsplit : before ++ range ++ behind = before ++ gone ++ rest := by
    rw [hgone, hrest]
    simp
  cases rest with
  | nil =>
    have hright : blkEnd (before ++ gone) = b.bsiz := by simpa using h.wf.laid.end_eq
    simp [rightSegs, hright]
  | cons t rest =>
    have hne : blkEnd (before ++ gone) ≠ b.bsiz := (h.wf.laid.append.off_lt (by simp)).ne
    obtain ⟨-, hgrow, -⟩ := keyGrowth_spec hcut (hsplit ▸ h.wf) hextra hrest.symm
    rw [← hgone] at hgrow
    have hfit : blkEnd before + (lcp (lastKey [] (before ++ gone)) t.keyBytes - lcp (lastKey [] before) t.keyBytes) ≤
        blkEnd (before ++ gone) := by
      obtain ⟨-, hshift, -⟩ := h.wf.contents.end_shift
      have hle := endOf_ge (blkEnd before) (lastKey [] before) gone
      rw [← blkEnd_append] at hle
      rw [Entry.cmpc, Entry.cmpc] at hshift
      omega
    have hprev : (keyGrowth b low high rightExtra high.offset (blkEnd (before ++ gone))).2.2 ≠ 0 →
        blkEnd before + (keyGrowth b low high rightExtra high.offset (blkEnd (before ++ gone))).2.1 ≤
          high.offset := fun hp => keyGrowth_prev hcut (hsplit ▸ h.wf) hextra hp
    rw [← hgrow] at hfit
    generalize keyGrowth b low high rightExtra high.offset (blkEnd (before ++ gone)) = growth at hfit hprev
    obtain ⟨base, len, prev⟩ := growth
    simp only at hfit hprev
    have hsupply : ((searchKey.drop base).take len).length ≤ len := List.length_take_le _ _
    simp only [rightSegs, if_neg hne]
    split
    · simp only [leftward_buf_cons, leftward_nil, and_true]
      omega
    · -- a new header, the bytes for the key, and the rest
      split_ifs <;> simp only [List.cons_append, List.nil_append, leftward_lit_cons, leftward_buf_cons, leftward_nil, length_recHdr,
        and_true] <;> omega

/-- An array without pieces that go to the right is processed forward. -/
theorem callerArray_of_leftward {firstCopy : Bool} {segs : List Seg} (hleft : Leftward blkHdrSize segs)
    (hfirst : firstCopy = false → ∃ len rest, segs = .buf blkHdrSize len :: rest) : CallerArray true firstCopy segs where
  behind {off len} hm := by
    obtain ⟨pre, post, hs⟩ := List.append_of_mem hm
    exact (Nat.le_add_right _ _).trans (hleft pre off len post hs)
  first := hfirst
  left _ hs _ := hleft _ _ _ _ hs
  right h := nomatch h

/-- `first_copy` of a kill: the segments do not start with a piece that stays. -/
def killFirstCopy (left : List Seg) : Bool :=
  match left with
  | .buf _ _ :: _ => false
  | _ => true

theorem leftSegs_first {leftPtr delPtr rightPtr : Nat} (h : killFirstCopy (leftSegs env b leftPtr delPtr rightPtr) = false) :
    ∃ len rest, leftSegs env b leftPtr delPtr rightPtr = .buf blkHdrSize len :: rest := by
  rw [leftSegs] at h ⊢
  split at h
  · cases h
  · next hdel =>
    rw [if_neg hdel]
    split at h
    · next hkeep => exact ⟨_, _, if_pos hkeep⟩
    · next hkeep =>
      rw [if_neg hkeep]
      split at h
      · next hlt => exact ⟨_, _, by rw [if_pos hlt]; rfl⟩
      · cases h

/-- The array of `gvcst_kill_blk`. -/
theorem Left.callerArray (env : KillEnv) (h : Left b searchKey low high rightExtra before gone rest) : CallerArray true
      (killFirstCopy (leftSegs env b low.offset (blkEnd before) (blkEnd (before ++ gone))))
      (killSegs env b searchKey low high rightExtra (blkEnd before) (blkEnd (before ++ gone))) := by
  obtain ⟨range, behind, -, -, -, hcut⟩ := h.cut
  have hval : b.levl ≠ 0 → ∀ e ∈ before, e.val.length = sizeofBlkId b.longBlkId := fun hlevl e he => by
    have hc := h.wf.contents
    rw [decide_eq_false hlevl] at hc
    exact hc.val_length (by simp [he])
  have hl := h.wf.laid
  rw [List.append_assoc] at hl
  obtain ⟨hleft, hend⟩ := leftSegs_leftward hcut.lowOff hl hval (blkEnd (before ++ gone))
  refine callerArray_of_leftward (leftward_append.2 ⟨hleft, (rightSegs_leftward env h).mono hend⟩) fun hfirst => ?_
  obtain ⟨len, segs, hs⟩ := leftSegs_first hfirst
  exact ⟨len, _, by rw [killSegs, hs]; rfl⟩

end Kill

end Gtm
