import Gtm.Gds.PutLeaf
import Gtm.Theorems.BlockBuild
import Gtm.Theorems.BlockKill

/-!
# A record with another value

A leaf in which one record gets another value has the same keys, so that all compression counts stay. What the code puts around the
new value are the bytes of the leaf before and behind the record, and the header and the bytes of the key that the record had.
-/

namespace Gtm

open CommonPrefix LexOrder

/-! ## Entries with another value -/

/-- The compression counts of the records. -/
def cmpcs : List UInt8 → List Entry → List Nat
  | _, [] => []
  | prior, e :: es => e.cmpc prior :: cmpcs e.keyBytes es

theorem cmpcs_update (prior k old value : List UInt8) (pre post : List Entry) :
    cmpcs prior (pre ++ ⟨some k, value⟩ :: post) = cmpcs prior (pre ++ ⟨some k, old⟩ :: post) := by
  induction pre generalizing prior with
  | nil => rfl
  | cons e pre ih => rw [List.cons_append, List.cons_append, cmpcs, cmpcs, ih]

theorem Contents.update {n : Nat} {prior k old : List UInt8} {pre post : List Entry} (value : List UInt8)
    (h : Contents true n prior (pre ++ ⟨some k, old⟩ :: post)) : Contents true n prior (pre ++ ⟨some k, value⟩ :: post) := by
  obtain ⟨hk, hlt, -, hpost⟩ := h.append (by simp)
  exact h.replace (by simp) ⟨hk, hlt, nofun, hpost⟩

/-- The leaf `b` has the key, with the value `old`, at the position `stat`. -/
structure KeyAt (b : GdsBlk) (key old : List UInt8) (pre post : List Entry) (stat : SrchStat) : Prop where
  wf : WfBlk b (pre ++ ⟨some key, old⟩ :: post)
  leaf : b.levl = 0
  prevMtch : stat.prevRec.mtch = lcp (lastKey [] pre) key
  currOffset : stat.currRec.offset = blkEnd pre
  currMtch : stat.currRec.mtch = key.length

/-- A search in a leaf splits it at the record with the key, if there is one. -/
theorem leaf_split {b : GdsBlk} {es : List Entry} {key : List UInt8} (h : WfBlk b es) (hleaf : b.levl = 0) (hkey : isKey key = true) :
    ∃ pre old post, es = pre ++ old ++ post ∧ (∀ e ∈ pre, e.before key = true) ∧ (∀ e ∈ post, ∀ k, e.key = some k → key < k) ∧
      (naiveSearch b key).prevRec.mtch = lcp (lastKey [] pre) key ∧ (naiveSearch b key).currRec.offset = blkEnd pre ∧
      (old = [] ∧ (naiveSearch b key).currRec.mtch = currMatch key post ∧ (naiveSearch b key).currRec.mtch ≠ key.length ∨
        ∃ v, old = [⟨some key, v⟩] ∧ (naiveSearch b key).currRec.mtch = key.length) := by
  obtain ⟨pre, post, rfl, hpre, hpost, hprev, hcurr⟩ := naiveSearch_split h key
  have hlen := isKey_length hkey
  rw [hprev, hcurr]
  match post with
  | [] => exact ⟨pre, [], [], by simp, hpre, nofun, rfl, rfl, .inl ⟨rfl, rfl, by simp only [currMatch]; omega⟩⟩
  | ⟨none, v⟩ :: post =>
    have hc := h.contents.append (List.cons_ne_nil _ _)
    simp [Contents, hleaf] at hc
  | ⟨some kt, v⟩ :: post =>
    obtain ⟨hkt, -, -, hrest⟩ := h.contents.append (List.cons_ne_nil _ _)
    have hle : key ≤ kt := Entry.not_before_iff.1 (hpost _ rfl) kt rfl
    rcases eq_or_lt_of_le hle with rfl | hlt
    · refine ⟨pre, [⟨some key, v⟩], post, by simp, hpre, fun e he k hk => hrest.prior_lt he hk, rfl, rfl, .inr ⟨v, rfl, ?_⟩⟩
      exact lcp_self key
    · refine ⟨pre, [], ⟨some kt, v⟩ :: post, by simp, hpre, ?_, rfl, rfl, .inl ⟨rfl, rfl, fun hm => ?_⟩⟩
      · rintro e he k hk
        rcases List.mem_cons.1 he with rfl | he
        · exact Option.some.inj hk ▸ hlt
        · exact hlt.trans (hrest.prior_lt he hk)
      · have hfull : key <+: kt := by
          have htake : kt.take (lcp kt key) = key.take (lcp kt key) := take_eq_of_le_lcp le_rfl
          rw [show lcp kt key = key.length from hm, List.take_length] at htake
          exact htake ▸ List.take_prefix _ _
        exact hlt.ne (isKey_prefix_eq hkey hkt hfull)

/-- A search that matches the whole key has found it. -/
theorem keyAt_of_match {b : GdsBlk} {es : List Entry} {key : List UInt8} (h : WfBlk b es) (hleaf : b.levl = 0) (hkey : isKey key = true)
    (hm : (naiveSearch b key).currRec.mtch = key.length) :
    ∃ pre old post, es = pre ++ ⟨some key, old⟩ :: post ∧ KeyAt b key old pre post (naiveSearch b key) := by
  obtain ⟨pre, old, post, rfl, -, -, hprev, hcurr, ⟨-, -, hne⟩ | ⟨v, rfl, -⟩⟩ := leaf_split h hleaf hkey
  · exact absurd hm hne
  · rw [List.append_assoc, List.singleton_append] at h ⊢
    exact ⟨pre, v, post, rfl, h, hleaf, hprev, hcurr, hm⟩

namespace KeyAt

variable {env : KillEnv} {b : GdsBlk} {key old value : List UInt8} {pre post : List Entry} {stat : SrchStat}

theorem lcp_le (_ : KeyAt b key old pre post stat) : lcp (lastKey [] pre) key ≤ key.length := lcp_le_right _ _

section
variable (h : KeyAt b key old pre post stat)
include h

theorem size_eq : (⟨some key, old⟩ : Entry).size (lastKey [] pre) + lcp (lastKey [] pre) key = recHdrSize + key.length + old.length := by
  have hle := h.lcp_le
  simp only [Entry.size, Entry.data, Entry.cmpc, Entry.keyBytes, Option.getD_some, List.length_append, List.length_drop]
  omega

/-- The header of the record and where it ends. -/
theorem record : b.rsiz stat.currRec.offset + lcp (lastKey [] pre) key = recHdrSize + key.length + old.length ∧
      b.evalCmpc stat.currRec.offset = lcp (lastKey [] pre) key ∧ stat.currRec.offset + b.rsiz stat.currRec.offset ≤ b.bsiz := by
  obtain ⟨hrsiz, hcmpc, -, hle⟩ := h.wf.laid.record
  have hsize := h.size_eq
  rw [h.currOffset, hrsiz, hcmpc]
  exact ⟨hsize, rfl, hle⟩

/-- Where the record stands there is room for the bytes of its key that the records before it supply. -/
theorem le_offset : blkHdrSize + lcp (lastKey [] pre) key ≤ stat.currRec.offset := by
  have hgrow := h.wf.contents.growth_le blkHdrSize
  rw [h.currOffset]
  simpa [Entry.keyBytes] using hgrow

/-- The value stands at the end of the record. -/
theorem value_eq : b.bytes (stat.currRec.offset + b.rsiz stat.currRec.offset - old.length) old.length = old := by
  obtain ⟨hrsiz, -, hdata, -⟩ := h.wf.laid.record
  rw [Entry.data, GdsBlk.hasBytes_append] at hdata
  have hval := hdata.2
  rw [h.currOffset, hrsiz, Entry.size, Entry.data, List.length_append, show blkEnd pre + (recHdrSize +
    (((⟨some key, old⟩ : Entry).keyBytes.drop ((⟨some key, old⟩ : Entry).cmpc (lastKey [] pre))).length + old.length)) - old.length =
    blkEnd pre + recHdrSize + ((⟨some key, old⟩ : Entry).keyBytes.drop ((⟨some key, old⟩ : Entry).cmpc (lastKey [] pre))).length
    by omega]
  exact hval

theorem dataLen_eq : dataLen b stat = old.length := by
  obtain ⟨hrsiz, hcmpc, -⟩ := h.record
  rw [dataLen, h.currMtch]
  omega

end

/-- The bytes of the leaf with another value in the record. -/
def newBytes (env : KillEnv) (b : GdsBlk) (key value : List UInt8) (stat : SrchStat) : List UInt8 :=
  b.bytes blkHdrSize (stat.currRec.offset - blkHdrSize) ++
    (recHdr env (recHdrSize + (key.length - stat.prevRec.mtch) + value.length) stat.prevRec.mtch ++
      (key.drop stat.prevRec.mtch ++ value) ++
      b.bytes (stat.currRec.offset + b.rsiz stat.currRec.offset) (b.bsiz - (stat.currRec.offset + b.rsiz stat.currRec.offset)))

section
variable (h : KeyAt b key old pre post stat)
include h

theorem newBytes_length (env : KillEnv) (value : List UInt8) :
    blkHdrSize + (newBytes env b key value stat).length + old.length = b.bsiz + value.length := by
  obtain ⟨hrsiz, -, hle⟩ := h.record
  have hlcp := h.lcp_le
  have hoff := h.le_offset
  simp only [newBytes, List.length_append, GdsBlk.length_bytes, List.length_drop, length_recHdr, h.prevMtch]
  omega

/-- The bytes encode the entries with the other value. -/
theorem newBytes_enc (env : KillEnv) (hsize : recHdrSize + (key.length - stat.prevRec.mtch) + value.length < 65536) :
    Enc (newBytes env b key value stat) [] (pre ++ ⟨some key, value⟩ :: post) := by
  obtain ⟨hrsiz, -, -, -⟩ := h.wf.laid.record
  have hsplit : pre ++ (⟨some key, old⟩ : Entry) :: post = (pre ++ [⟨some key, old⟩]) ++ post := by simp
  have htail := (hsplit ▸ h.wf.laid).enc_suffix
  rw [blkEnd_snoc, lastKey_snoc, ← hrsiz, ← h.currOffset] at htail
  have hc : stat.prevRec.mtch ≤ 1020 := by
    rw [h.prevMtch, ← h.record.2.1]
    exact evalCmpc_le _ _
  obtain ⟨hlen, hr, hcm⟩ := recHdr_spec env hsize hc
  refine enc_append.2 ⟨_, _, rfl, ?_, _, _, hlen, ?_, hr.trans ?_, hcm.trans ?_, htail⟩
  · rw [h.currOffset]
    exact h.wf.laid.enc_prefix
  · simp [Entry.data, Entry.cmpc, Entry.keyBytes, h.prevMtch]
  · simp only [Entry.size, Entry.data, Entry.cmpc, Entry.keyBytes, Option.getD_some, List.length_append, List.length_drop, h.prevMtch]
    omega
  · rw [h.prevMtch]
    rfl

/-- What is built of segments with these bytes is the leaf with the other value. -/
theorem buildBlk_wf {segs : List Seg} (hbytes : segBytes b segs = newBytes env b key value stat) (hsize : blkSegCnt segs < 65536) :
    WfBlk (buildBlk b 0 segs) (pre ++ ⟨some key, value⟩ :: post) := by
  have hlen : blkHdrSize + (newBytes env b key value stat).length < 65536 := by rwa [← hbytes, ← segBytes_length]
  have hcontents := h.wf.contents
  rw [decide_eq_true h.leaf] at hcontents
  refine ⟨buildBlk_laid (hbytes ▸ h.newBytes_enc env ?_), hcontents.update value, fun _ e he => ?_⟩
  · simp only [newBytes, List.length_append, GdsBlk.length_bytes, List.length_drop, length_recHdr] at hlen
    omega
  · rcases List.mem_append.1 he with he | he
    · exact h.wf.start h.leaf e (List.mem_append_left _ he)
    · rcases List.mem_cons.1 he with rfl | he
      · exact h.wf.start h.leaf ⟨some key, old⟩ (by simp)
      · exact h.wf.start h.leaf e (List.mem_append_right _ (List.mem_cons_of_mem _ he))

end

/-! ## The two arrays -/

theorem ushort_natCast {n : Nat} (h : n < 65536) : ushort n = n := by
  rw [ushort]
  omega

/-- The array of an increment. -/
theorem incrSegs_bytes (h : KeyAt b key old pre post stat) (env : IncrEnv)
    (hsize : recHdrSize + (key.length - stat.prevRec.mtch) + value.length < 65536) :
    segBytes b (incrSegs env b key value stat (recHdrSize + (key.length - stat.prevRec.mtch) + value.length : Nat)) =
      newBytes env.toKillEnv b key value stat := by
  have htail : segBytes b (if (0 : Int) < b.bsiz - (stat.currRec.offset + b.rsiz stat.currRec.offset) then
      [.buf (stat.currRec.offset + b.rsiz stat.currRec.offset)
        ((b.bsiz : Int) - (stat.currRec.offset + b.rsiz stat.currRec.offset)).toNat] else []) =
      b.bytes (stat.currRec.offset + b.rsiz stat.currRec.offset) (b.bsiz - (stat.currRec.offset + b.rsiz stat.currRec.offset)) := by
    split
    · simp only [segBytes, List.flatMap_cons, List.flatMap_nil, Seg.bytes, List.append_nil]
      congr 1
      omega
    · rw [show b.bsiz - (stat.currRec.offset + b.rsiz stat.currRec.offset) = 0 by omega]
      rfl
  rw [incrSegs, segBytes_append, htail, ushort_natCast hsize, newBytes]
  simp [segBytes, Seg.bytes]

/-- The sizes that `gvcst_put2` computes. -/
theorem putSizes_eq (h : KeyAt b key old pre post stat) (value : List UInt8) :
    putSizes b key value stat = let newRecSize : Nat := recHdrSize + (key.length - stat.prevRec.mtch) + value.length
      ⟨b.rsiz stat.currRec.offset, stat.prevRec.mtch, newRecSize, 0, newRecSize - b.rsiz stat.currRec.offset⟩ := by
  obtain ⟨hrsiz, hcmpc, hle⟩ := h.record
  have hlcp := h.lcp_le
  have hne : stat.currRec.offset ≠ b.bsiz := by
    rw [recHdrSize] at hrsiz
    omega
  have hsize : ((recHdrSize : Int) + (key.length - lcp (lastKey [] pre) key) + value.length) =
      (recHdrSize + (key.length - lcp (lastKey [] pre) key) + value.length : Nat) := by
    omega
  simp only [putSizes, if_neg hne, hcmpc, h.currMtch, h.prevMtch, ne_eq, not_true_eq_false, if_false, hsize]

/-- The segment behind a record that keeps its place. -/
theorem behindSegs_update {s : PutSizes} (hshrink : s.nextRecShrink = 0) : ∃ behind, behindSegs env b stat false s = some behind ∧
      segBytes b behind = b.bytes (stat.currRec.offset + s.recSize) (b.bsiz - (stat.currRec.offset + s.recSize)) := by
  simp only [behindSegs, hshrink, Bool.false_eq_true, if_false]
  split
  · refine ⟨[], rfl, ?_⟩
    rw [show b.bsiz - (stat.currRec.offset + s.recSize) = 0 by omega]
    rfl
  · rw [if_neg (by omega)]
    refine ⟨_, rfl, ?_⟩
    simp only [segBytes, List.nil_append, List.flatMap_cons, List.flatMap_nil, Seg.bytes, List.append_nil]
    congr 1
    omega

theorem recordSegs_bytes (b : GdsBlk) (key value : List UInt8) (stat : SrchStat) {n : Nat} (hn : n < 65536) :
    segBytes b (recordSegs env key value stat n) = b.bytes blkHdrSize (stat.currRec.offset - blkHdrSize) ++
      (recHdr env n stat.prevRec.mtch ++ (key.drop stat.prevRec.mtch ++ value)) := by
  rw [recordSegs, ushort_natCast hn]
  by_cases hv : value = [] <;> simp [segBytes, Seg.bytes, hv]

section
variable (h : KeyAt b key old pre post stat)
include h

/-- Where the new value fits, `gvcst_put2` writes the leaf with it, or nothing if it is the old one. -/
theorem gvcstPutLeaf_eq (env : PutEnv) (value : List UInt8) (hnonTp : env.dollarTlevel = false) (hrc : env.rcSetFragment = 0)
    (hfit : (b.bsiz : Int) - old.length + value.length ≤ env.blkFillSize) : gvcstPutLeaf env b key value stat = .duplicate ∧ value = old ∨
      ∃ segs, gvcstPutLeaf env b key value stat = .written segs ∧ segBytes b segs = newBytes env.toKillEnv b key value stat := by
  obtain ⟨hrsiz, -, hle⟩ := h.record
  have hlcp := h.lcp_le
  have hoff := h.le_offset
  have hfill : env.blkFillSize ≤ env.blkReservedSize := by
    have hcut : env.blkSize * env.gvFillfactor / 100 ≤ env.blkSize :=
      Nat.div_le_of_le_mul ((Nat.mul_le_mul_left _ env.gvFillfactor_le).trans_eq (Nat.mul_comm _ _))
    rw [PutEnv.blkFillSize, PutEnv.blkReservedSize]
    omega
  have hreserved : env.blkReservedSize ≤ env.blkSize := by
    rw [PutEnv.blkReservedSize]
    omega
  have hsizes := h.putSizes_eq value
  have hbad : badBlkNum env.toKillEnv env.blk = false := by simp [badBlkNum, hnonTp]
  have hnew : decide (key.length ≠ stat.currRec.mtch) = false := by simp [h.currMtch]
  have hlast : (stat.currRec.offset + (recHdrSize + (key.length - stat.prevRec.mtch) + value.length) - value.length) + old.length =
      stat.currRec.offset + b.rsiz stat.currRec.offset := by
    rw [h.prevMtch]
    omega
  simp only [gvcstPutLeaf, hsizes, hnew, hbad, hnonTp, Bool.false_eq_true, and_false, false_and, true_and, if_false, ne_eq, not_true_eq_false]
  rw [if_neg (by omega), if_neg (by omega), if_neg (by rw [h.prevMtch]; omega), hrc, if_pos rfl]
  by_cases hdup : (recHdrSize + (key.length - stat.prevRec.mtch) + value.length : Nat) - (b.rsiz stat.currRec.offset : Int) = 0 ∧
      ¬value = [] ∧ value = b.bytes (stat.currRec.offset +
        ((recHdrSize + (key.length - stat.prevRec.mtch) + value.length : Nat) : Int).toNat - value.length) value.length ∧
      env.gvdupsetnoop = true
  · obtain ⟨-, -, hval, -⟩ := id hdup
    have hlen : value.length = old.length := by
      omega
    rw [if_pos hdup]
    refine .inl ⟨rfl, ?_⟩
    rw [hval, ← h.value_eq]
    congr 1
    rw [← hlast, Int.toNat_natCast, hlen, Nat.add_sub_cancel]
  · rw [if_neg hdup, if_pos (.inl (by rw [h.prevMtch]; omega))]
    obtain ⟨behind, hbehind, hbytes⟩ := @behindSegs_update env.toKillEnv b stat
      (⟨b.rsiz stat.currRec.offset, stat.prevRec.mtch, (recHdrSize + (key.length - stat.prevRec.mtch) + value.length : Nat), 0,
        (recHdrSize + (key.length - stat.prevRec.mtch) + value.length : Nat) - b.rsiz stat.currRec.offset⟩) rfl
    rw [hbehind]
    have hlen := h.newBytes_length env.toKillEnv value
    have hsz := env.blkSize_lt
    have hall : segBytes b (recordSegs env.toKillEnv key value stat (recHdrSize + (key.length - stat.prevRec.mtch) + value.length : Nat) ++
        behind) = newBytes env.toKillEnv b key value stat := by
      rw [segBytes_append, recordSegs_bytes b key value stat (by rw [h.prevMtch]; omega), hbytes, newBytes, List.append_assoc]
    refine .inr ⟨_, if_pos ?_, hall⟩
    rw [segBytes_length b, hall]
    omega

/-- The increment is that of the value in the leaf. -/
theorem gvincrComputePostIncr_eq (env : IncrEnv) : gvincrComputePostIncr env b stat = .ok (env.postIncr old) := by
  obtain ⟨-, -, hle⟩ := h.record
  simp only [gvincrComputePostIncr, h.dataLen_eq, Int.toNat_natCast]
  rw [if_neg (by omega), h.value_eq]

/-- `new_rec_size`, from the size of the record. -/
theorem incrRecSize_eq (value : List UInt8) : (b.rsiz stat.currRec.offset : Int) - dataLen b stat + value.length =
      (recHdrSize + (key.length - stat.prevRec.mtch) + value.length : Nat) := by
  obtain ⟨hrsiz, -, -⟩ := h.record
  have hlcp := h.lcp_le
  rw [h.dataLen_eq, h.prevMtch]
  omega

end

end KeyAt

/-- The array of an increment leaves the records before its own in place, and moves those behind it. -/
theorem incrSegs_callerArray (env : IncrEnv) (b : GdsBlk) (key value : List UInt8) {stat : SrchStat} (newRecSize : Int)
    (hoff : blkHdrSize ≤ stat.currRec.offset) : CallerArray false false (incrSegs env b key value stat newRecSize) := by
  have hshape : incrSegs env b key value stat newRecSize = insertSegs (some (stat.currRec.offset - blkHdrSize))
      [recHdr env.toKillEnv (ushort newRecSize) stat.prevRec.mtch, key.drop stat.prevRec.mtch, value]
      (if (0 : Int) < b.bsiz - (stat.currRec.offset + b.rsiz stat.currRec.offset) then
        some (stat.currRec.offset + b.rsiz stat.currRec.offset,
          ((b.bsiz : Int) - (stat.currRec.offset + b.rsiz stat.currRec.offset)).toNat) else none) := by
    rw [incrSegs]
    split <;> rfl
  rw [hshape]
  refine callerArray_insert (fun _ => rfl) (fun r hr => ?_) nofun
  split at hr
  · cases hr
    omega
  · cases hr

theorem gvincrComputePostIncr_error {env : IncrEnv} {b : GdsBlk} {stat : SrchStat} {sc : BlkSc}
    (h : gvincrComputePostIncr env b stat = .error sc) : sc ≠ .normal := by
  simp only [gvincrComputePostIncr] at h
  split at h
  · cases h
    nofun
  · cases h

/-- What a normal return of `gvincr_recompute_upd_array` has passed. -/
theorem gvincrRecomputeUpdArray_cases {env : IncrEnv} {b : GdsBlk} {key altkey : List UInt8} {stat : SrchStat} {cse : IncrCse}
    {cr : Option IncrCr} (h : (gvincrRecomputeUpdArray env b key stat altkey cse cr).sc = .blk .normal) :
    ∃ value, let out := gvincrRecomputeUpdArray env b key stat altkey cse cr
      let srch := gvcstSearchBlk env.srch b key stat altkey
      let recSize : Int := b.rsiz srch.stat.currRec.offset
      let newRecSize : Int := recSize - dataLen b srch.stat + value.length
      key.length = srch.stat.currRec.mtch ∧ gvincrComputePostIncr env b srch.stat = .ok value ∧
        b.bsiz + (newRecSize - recSize) ≤ env.blkFillSize ∧ env.rcSetFragment = 0 ∧
        blkSegCnt (incrSegs env b key value srch.stat newRecSize) ≤ env.blkSize ∧
        out.stat = srch.stat ∧ out.postIncrMval = some value ∧ out.cse.updAddr = incrSegs env b key value srch.stat newRecSize := by
  revert h
  simp only [gvincrRecomputeUpdArray]
  cases cr with
  | none => nofun
  | some cr =>
    by_cases hread : 0 ≤ cr.readInProgress
    · simp only [if_pos hread]
      nofun
    simp only [if_neg hread]
    by_cases htend : cr.inTend = true
    · simp only [if_pos htend]
      nofun
    simp only [if_neg htend]
    by_cases hsc : (gvcstSearchBlk env.srch b key stat altkey).sc ≠ .normal
    · simp only [if_pos hsc]
      exact fun h => absurd (IncrSc.blk.inj h) hsc
    simp only [if_neg hsc]
    by_cases hmtch : key.length ≠ (gvcstSearchBlk env.srch b key stat altkey).stat.currRec.mtch
    · simp only [if_pos hmtch]
      nofun
    simp only [if_neg hmtch]
    cases hvalue : gvincrComputePostIncr env b (gvcstSearchBlk env.srch b key stat altkey).stat with
    | error sc => exact fun h => absurd (IncrSc.blk.inj h) (gvincrComputePostIncr_error hvalue)
    | ok value =>
      dsimp only
      split
      · nofun
      · next hfill =>
        split
        · nofun
        · next hrc =>
          split
          · nofun
          · next hcnt =>
            split
            · nofun
            · exact fun _ => ⟨value, not_not.1 hmtch, rfl, not_lt.1 hfill, not_not.1 hrc, not_lt.1 hcnt, rfl, rfl, rfl⟩

end Gtm

/-!
## Increments at commit time

When the leaf of an increment has changed meanwhile, the update array is made again at commit time, from a search in the leaf as it is
now. What is built of the array is that leaf with the new value in the record of the key, which is also what `gvcst_put2` makes of it.
-/

namespace Gtm

/-- The update element for a leaf into which a value is put, with the array. -/
def leafElem (b : GdsBlk) (segs : List Seg) : CwElem := ⟨segs, b.longBlkId, 0, false, false, 0, 0, 0, 0⟩

/-- A put in the same region. What the memory for record headers holds, and what is done with values that are there, may differ. -/
def IncrEnv.put (env : IncrEnv) (cmpc2 : UInt8) (gvdupsetnoop ztoldRead : Bool) : PutEnv :=
  { env.toPutEnv with toKillEnv := { env.toKillEnv with cmpc2 := cmpc2 }, gvdupsetnoop := gvdupsetnoop, ztoldRead := ztoldRead }

/-- Where `gvincr_recompute_upd_array` returns normally, the leaf has the key. What is built of the array has the new value there and
the other entries as they were, with the same compression counts, and keeps within the fill factor. `gvcst_put2` builds the same of the
leaf, unless it leaves out to set the value the node has. -/
theorem gvincrRecomputeUpdArray_update (env : IncrEnv) {b : GdsBlk} {es : List Entry} {key : List UInt8} (stat : SrchStat)
    (altkey : List UInt8) (cse : IncrCse) (cr : Option IncrCr) (h : WfBlk b es) (hleaf : b.levl = 0) (hb : b.bsiz ≤ env.blkSize)
    (hkey : isKey key = true) (hfit : env.expandPrevKey = true → ∀ e ∈ es, e.keyBytes.length ≤ env.altTop)
    (hnormal : (gvincrRecomputeUpdArray env b key stat altkey cse cr).sc = .blk .normal) :
    let out := gvincrRecomputeUpdArray env b key stat altkey cse cr
    let new := buildBlk b 0 out.cse.updAddr
    ∃ pre old post, es = pre ++ ⟨some key, old⟩ :: post ∧
      let value := env.postIncr old
      let es' := pre ++ ⟨some key, value⟩ :: post
      out.postIncrMval = some value ∧ out.stat = naiveSearch b key ∧
        WfBlk new es' ∧ cmpcs [] es' = cmpcs [] es ∧ (new.bsiz : Int) ≤ env.blkFillSize ∧
        (∀ benv tn ctn, (gvcstBlkBuild benv (some ⟨b, tn⟩) none ctn (leafElem b out.cse.updAddr)).2.blk = new) ∧
        ∀ cmpc2 gvdupsetnoop ztoldRead,
          let put := gvcstPutLeaf (env.put cmpc2 gvdupsetnoop ztoldRead) b key value (naiveSearch b key)
          put = .duplicate ∧ value = old ∨
            ∃ segs, put = .written segs ∧ WfBlk (buildBlk b 0 segs) es' ∧ (cmpc2 = env.cmpc2 → buildBlk b 0 segs = new) := by
  intro out new
  obtain ⟨value, hmtch, hpost, hfill, hrc, hcnt, hstat, hval, hsegs⟩ := gvincrRecomputeUpdArray_cases hnormal
  have hsearch : (gvcstSearchBlk env.srch b key stat altkey).stat = naiveSearch b key := by
    rw [gvcstSearchBlk_wf h hb hkey hfit]
    exact (congrArg Prod.fst (naiveSearch_eq h key)).symm
  rw [hsearch] at hmtch hpost hfill hcnt hstat hsegs
  obtain ⟨pre, old, post, hes, hat⟩ := keyAt_of_match h hleaf hkey hmtch.symm
  obtain rfl : env.postIncr old = value := Except.ok.inj ((hat.gvincrComputePostIncr_eq env).symm.trans hpost)
  rw [hat.incrRecSize_eq] at hfill hcnt hsegs
  -- the block is below the size that a record size can express
  have hlt := env.blkSize_lt
  have hrecord : recHdrSize + (key.length - (naiveSearch b key).prevRec.mtch) + (env.postIncr old).length < 65536 := by
    refine Nat.lt_of_le_of_lt ?_ (Nat.lt_of_le_of_lt hcnt hlt)
    simp only [incrSegs, blkSegCnt, List.map_append, List.map_cons, List.sum_append, List.sum_cons, Seg.len, List.length_drop,
      length_recHdr]
    omega
  have hbytes := hat.incrSegs_bytes env hrecord
  rw [← hsegs] at hbytes hcnt
  have hgrowth : (b.bsiz : Int) - old.length + (env.postIncr old).length ≤ env.blkFillSize := by
    have hdata := hat.incrRecSize_eq (env.postIncr old)
    rw [hat.dataLen_eq] at hdata
    omega
  have hsize : (blkSegCnt out.cse.updAddr : Int) ≤ env.blkFillSize := by
    have hlen := hat.newBytes_length env.toKillEnv (env.postIncr old)
    rw [segBytes_length b, show segBytes b out.cse.updAddr = _ from hbytes]
    omega
  have hwf := hat.buildBlk_wf hbytes (Nat.lt_of_le_of_lt hcnt hlt)
  refine ⟨pre, old, post, hes, hval, hstat, hwf, ?_, hsize, fun benv tn ctn => ?_, fun cmpc2 gvdupsetnoop ztoldRead => ?_⟩
  · rw [hes]
    exact cmpcs_update [] key old (env.postIncr old) pre post
  · refine gvcstBlkBuild_eq_buildBlk benv ⟨b, tn⟩ ctn ?_ rfl rfl
    rw [show (leafElem b out.cse.updAddr).updAddr = _ from hsegs]
    exact incrSegs_callerArray env b key _ _ (Nat.le_trans (Nat.le_add_right _ _) hat.le_offset)
  · rcases hat.gvcstPutLeaf_eq (env.put cmpc2 gvdupsetnoop ztoldRead) (env.postIncr old) env.nonTp hrc
      hgrowth with ⟨hput, heq⟩ | ⟨segs, hput, hbytes'⟩
    · exact .inl ⟨hput, heq⟩
    · have hcnt' : blkSegCnt segs = blkSegCnt out.cse.updAddr := by
        have hlen := hat.newBytes_length env.toKillEnv (env.postIncr old)
        have hlen' := hat.newBytes_length (env.put cmpc2 gvdupsetnoop ztoldRead).toKillEnv (env.postIncr old)
        rw [segBytes_length b segs, segBytes_length b out.cse.updAddr, hbytes', show segBytes b out.cse.updAddr = _ from hbytes]
        omega
      refine .inr ⟨segs, hput, hat.buildBlk_wf hbytes' (by rw [hcnt']; exact Nat.lt_of_le_of_lt hcnt hlt), fun hc => ?_⟩
      subst hc
      have hsame : segBytes b segs = segBytes b out.cse.updAddr := hbytes'.trans hbytes.symm
      simp only [buildBlk, new, hcnt', hsame]

/-- What the process has for an increment by nine of a value one. -/
def smallIncr : IncrEnv where
  toKillEnv := smallKill false false
  gvFillfactor := 100
  reservedBytes := 0
  rcSetFragment := 0
  gvdupsetnoop := true
  ztoldRead := false
  gvFillfactor_le := le_rfl
  blkSize_lt := by decide
  expandPrevKey := false
  altTop := 64
  keyAbove := false
  jnlBeforeImage := false
  epochTn := 0
  jnlGetChecksum := fun _ => 0
  postIncr := fun _ => [49, 48]
  nonTp := rfl

/-- The first value of the leaf gets a byte longer. -/
theorem gvincrRecomputeUpdArray_update_leaf :
    let out := gvincrRecomputeUpdArray smallIncr leafOfThree [65, 0, 0] ⟨⟨0, 0⟩, ⟨0, 0⟩⟩ [] ⟨[], 0, true, none, 0⟩ (some ⟨-1, false, 1⟩)
    (buildBlk leafOfThree 0 out.cse.updAddr).bsiz = 43 ∧
      ∃ segs, gvcstPutLeaf (smallIncr.put 0 true false) leafOfThree [65, 0, 0] [49, 48] (naiveSearch leafOfThree [65, 0, 0]) = .written segs ∧
        buildBlk leafOfThree 0 segs = buildBlk leafOfThree 0 out.cse.updAddr := by
  intro out
  obtain ⟨pre, old, post, hes, -, -, -, -, -, -, hput⟩ := gvincrRecomputeUpdArray_update smallIncr ⟨⟨0, 0⟩, ⟨0, 0⟩⟩ [] ⟨[], 0, true, none, 0⟩
    (some ⟨-1, false, 1⟩) leafOfThree_wf rfl (by decide) (by decide) nofun
    (show (gvincrRecomputeUpdArray smallIncr leafOfThree [65, 0, 0] ⟨⟨0, 0⟩, ⟨0, 0⟩⟩ [] ⟨[], 0, true, none, 0⟩ (some ⟨-1, false, 1⟩)).sc =
      .blk .normal by decide)
  refine ⟨by decide, ?_⟩
  rcases hput 0 true false with ⟨-, heq⟩ | ⟨segs, hput, -, hsame⟩
  · have hmem : (⟨some [65, 0, 0], old⟩ : Entry) ∈ threeEntries := hes ▸ by simp
    rw [← heq] at hmem
    exact absurd hmem (show (⟨some [65, 0, 0], [49, 48]⟩ : Entry) ∉ threeEntries by decide)
  · exact ⟨segs, hput, hsame rfl⟩

end Gtm
