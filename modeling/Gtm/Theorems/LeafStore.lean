import Gtm.Theorems.IncrementCommit

/-!
# A leaf as a store

Read through the search, a leaf is a map of keys to values. Setting a node changes the map at its key, whatever the compression of
the keys around it was and in whichever order the segments of the new leaf are moved.
-/

namespace Gtm

open CommonPrefix LexOrder

/-- `gvcst_get2`, at the leaf at which its search ends: no value where the key is not there. -/
def gvcstGetLeaf (env : SrchEnv) (b : GdsBlk) (key : List UInt8) (stat : SrchStat) (altkey : List UInt8) :
    Except BlkSc (Option (List UInt8)) :=
  let srch := gvcstSearchBlk env b key stat altkey
  if srch.sc ≠ .normal then .error srch.sc
  else if key.length = srch.stat.currRec.mtch then
    let rp := srch.stat.currRec.offset
    let len := dataLen b srch.stat
    if len < 0 ∨ b.bsiz < rp + b.rsiz rp then .error .rmisalign
    else .ok (some (b.bytes (rp + b.rsiz rp - len.toNat) len.toNat))
  else .ok none

/-! ## The map -/

/-- The value among the entries for a key. -/
def leafValue (es : List Entry) (key : List UInt8) : Option (List UInt8) := (es.find? fun e => e.key = some key).map Entry.val

variable {b : GdsBlk} {es pre post : List Entry} {key value k : List UInt8}

theorem leafValue_append (hpre : ∀ e ∈ pre, e.key ≠ some k) : leafValue (pre ++ post) k = leafValue post k := by
  rw [leafValue, List.find?_append, List.find?_eq_none.2 (by simpa using hpre), Option.none_or, leafValue]

theorem leafValue_eq_none (h : ∀ e ∈ es, e.key ≠ some k) : leafValue es k = none := by
  rw [leafValue, List.find?_eq_none.2 (by simpa using h)]
  rfl

theorem ne_of_before {e : Entry} (he : e.before k = true) : e.key ≠ some k := by
  obtain ⟨k', hk', hlt⟩ := Entry.before_iff.1 he
  rintro heq
  obtain rfl := Option.some.inj (hk'.symm.trans heq)
  exact lt_irrefl _ hlt

/-- The map with a value set, whether there was one or not. -/
theorem leafValue_set {old : List Entry} (hpre : ∀ e ∈ pre, e.before key = true) (hold : old = [] ∨ ∃ v, old = [⟨some key, v⟩]) :
    leafValue (pre ++ ⟨some key, value⟩ :: post) k = if k = key then some value else leafValue (pre ++ old ++ post) k := by
  split
  · next hk =>
    subst hk
    rw [leafValue_append fun e he => ne_of_before (hpre e he)]
    simp [leafValue]
  · next hk =>
    have hne : key ≠ k := fun heq => hk heq.symm
    rcases hold with rfl | ⟨v, rfl⟩ <;> simp [leafValue, List.find?_append, hne]

/-- What is read of a leaf is the value of the key. -/
theorem gvcstGetLeaf_eq {env : SrchEnv} (h : WfBlk b es) (hleaf : b.levl = 0) (hb : b.bsiz ≤ env.blkSize) (hkey : isKey key = true)
    (hexp : env.expandPrevKey = false) (stat : SrchStat) (altkey : List UInt8) :
    gvcstGetLeaf env b key stat altkey = .ok (leafValue es key) := by
  have hsearch : gvcstSearchBlk env b key stat altkey = ⟨.normal, naiveSearch b key, altkey⟩ := by
    rw [gvcstSearchBlk_wf h hb hkey (by simp [hexp]), ← naiveSearch_eq h key]
    simp [hexp]
  rw [gvcstGetLeaf, hsearch]
  obtain ⟨pre, old, post, rfl, hpre, hpost, hprev, hcurr, ⟨rfl, -, hm⟩ | ⟨v, rfl, hm⟩⟩ := leaf_split h hleaf hkey
  · simp only [ne_eq, not_true_eq_false, if_false, if_neg hm.symm]
    rw [leafValue_eq_none]
    intro e he hk
    rw [List.append_nil, List.mem_append] at he
    rcases he with he | he
    · exact ne_of_before (hpre e he) hk
    · exact lt_irrefl _ (hpost e he key hk)
  · rw [List.append_assoc, List.singleton_append] at h ⊢
    have hat : KeyAt b key v pre post (naiveSearch b key) := ⟨h, hleaf, hprev, hcurr, hm⟩
    obtain ⟨-, -, hle⟩ := hat.record
    simp only [ne_eq, not_true_eq_false, if_false, if_pos hm.symm, hat.dataLen_eq, Int.toNat_natCast, hat.value_eq]
    rw [if_neg (by omega), leafValue_append fun e he => ne_of_before (hpre e he)]
    simp [leafValue]

/-! ## A new record -/

/-- A record behind a key with which it agrees in more bytes: its header and the data from there on. -/
theorem Enc.reheaded (env : KillEnv) {l prior prior' : List UInt8} {t : Entry} {rest : List Entry} (h : Enc l prior (t :: rest))
    (hle : t.cmpc prior ≤ t.cmpc prior') (hc : t.cmpc prior' ≤ 1020) (hsize : t.size prior' < 65536) :
    Enc (recHdr env (t.size prior') (t.cmpc prior') ++ l.drop (recHdrSize + (t.cmpc prior' - t.cmpc prior))) prior' (t :: rest) := by
  obtain ⟨hd, l', hlen, rfl, -, -, hrest⟩ := h
  obtain ⟨h1, h2, h3⟩ := recHdr_spec env hsize hc
  refine ⟨_, l', h1, ?_, h2, h3, hrest⟩
  have hkey : t.cmpc prior' ≤ t.keyBytes.length := lcp_le_right _ _
  rw [← List.drop_drop, List.append_assoc, ← hlen, List.drop_left, Entry.data, Entry.data, List.append_assoc, List.append_assoc,
    List.drop_append_of_le_length (by rw [List.length_drop]; omega), List.drop_drop, Nat.add_sub_cancel' hle]
  simp only [List.append_assoc]

theorem Contents.append_leaf {n : Nat} {prior : List UInt8} {post' : List Entry} (h : Contents true n prior (pre ++ post))
    (h' : Contents true n (lastKey prior pre) post') : Contents true n prior (pre ++ post') := by
  induction pre generalizing prior with
  | nil => exact h'
  | cons e pre ih =>
    cases hk : e.key with
    | none => simp [Contents, hk] at h
    | some k =>
      have hkb : e.keyBytes = k := by simp [Entry.keyBytes, hk]
      rw [lastKey, hkb] at h'
      simp only [List.cons_append, Contents, hk] at h ⊢
      exact ⟨h.1, h.2.1, h.2.2.1, ih h.2.2.2 h'⟩

/-- What a leaf is written with. -/
theorem gvcstPutLeaf_written {env : PutEnv} {stat : SrchStat} {segs : List Seg} (hrc : env.rcSetFragment = 0)
    (h : gvcstPutLeaf env b key value stat = .written segs) :
    let newRec := decide (key.length ≠ stat.currRec.mtch)
    let s := putSizes b key value stat
    ∃ behind, behindSegs env.toKillEnv b stat newRec s = some behind ∧
      segs = recordSegs env.toKillEnv key value stat s.newRecSize ++ behind ∧ blkSegCnt segs ≤ env.blkSize := by
  simp only [gvcstPutLeaf] at h
  split_ifs at h
  cases hbehind : behindSegs env.toKillEnv b stat (decide (key.length ≠ stat.currRec.mtch)) (putSizes b key value stat) with
  | none =>
    rw [hbehind] at h
    cases h
  | some behind =>
    rw [hbehind] at h
    simp only [blkFini] at h
    split_ifs at h with hcnt
    cases h
    exact ⟨behind, hbehind, rfl, hcnt⟩

theorem lastKey_lt (hkey : isKey key = true) (hpre : ∀ e ∈ pre, e.before key = true) : lastKey [] pre < key := by
  rcases List.eq_nil_or_concat pre with rfl | ⟨pre, e, rfl⟩
  · obtain ⟨a, k, rfl⟩ := List.exists_cons_of_ne_nil (isKey_ne_nil hkey)
    exact List.nil_lt_cons _ _
  · obtain ⟨k, hk, hlt⟩ := Entry.before_iff.1 (hpre e (by simp))
    rw [List.concat_eq_append, lastKey_snoc, Entry.keyBytes, hk]
    exact hlt

theorem recordSegs_small {env : KillEnv} {stat : SrchStat} {n : Int} {behind : List Seg}
    (h : blkSegCnt (recordSegs env key value stat n ++ behind) < 65536) :
    recHdrSize + (key.length - stat.prevRec.mtch) + value.length < 65536 := by
  refine Nat.lt_of_le_of_lt ?_ h
  by_cases hv : value = [] <;> simp [recordSegs, blkSegCnt, Seg.len, length_recHdr, hv] <;> omega

section NewRecord

variable (h : WfBlk b (pre ++ post)) (hleaf : b.levl = 0) (hkey : isKey key = true) (hpre : ∀ e ∈ pre, e.before key = true)
  (hpost : ∀ e ∈ post, ∀ k, e.key = some k → key < k) {stat : SrchStat}
  (hcurr : stat.currRec.offset = blkEnd pre) (hmtch : stat.currRec.mtch = currMatch key post) (hne : stat.currRec.mtch ≠ key.length)

include h hleaf hkey hpre hpost hcurr hmtch hne

/-- The record behind the new one has more bytes in common with its key than with the key before. -/
theorem behindSegs_enc {env : KillEnv} {behind : List Seg} (hlen : key.length ≤ 1020) (hb : b.bsiz < 65536)
    (hbehind : behindSegs env b stat true (putSizes b key value stat) = some behind) :
    0 ≤ (putSizes b key value stat).nextRecShrink ∧ Enc (segBytes b behind) key post := by
  cases post with
  | nil =>
    have hend := h.laid.end_eq
    rw [List.append_nil] at hend
    simp only [behindSegs, hcurr, hend, if_true] at hbehind
    rw [if_pos (by omega)] at hbehind
    cases hbehind
    refine ⟨?_, rfl⟩
    simp only [putSizes, if_pos hne.symm, hcurr, hend, le_refl, if_true]
  | cons t rest =>
    obtain ⟨hrsiz, hcmpc, -, hle⟩ := h.laid.record
    cases hk : t.key with
    | none =>
      have hc := h.contents.append (List.cons_ne_nil _ _)
      simp [Contents, hleaf, hk] at hc
    | some kt =>
      have hkb : t.keyBytes = kt := by simp [Entry.keyBytes, hk]
      have hshare : lcp (lastKey [] pre) kt = min (lcp (lastKey [] pre) key) (lcp key kt) :=
        lcp_of_le_of_le (lastKey_lt hkey hpre).le (hpost t (by simp) kt hk).le
      have hcle : t.cmpc (lastKey [] pre) ≤ t.cmpc key := by
        rw [Entry.cmpc, Entry.cmpc, hkb]
        omega
      have hck : t.cmpc key ≤ 1020 := (lcp_le_left _ _).trans hlen
      have hm : stat.currRec.mtch = t.cmpc key := by
        rw [hmtch, currMatch, hk, Entry.cmpc, hkb, lcp_comm]
        rfl
      have hsize : t.size key + (t.cmpc key - t.cmpc (lastKey [] pre)) = t.size (lastKey [] pre) := by
        have hkle : t.cmpc key ≤ t.keyBytes.length := lcp_le_right _ _
        simp only [Entry.size, Entry.data, List.length_append, List.length_drop]
        omega
      have hpos : recHdrSize ≤ t.size key := t.recHdrSize_le_size key
      have hrp : stat.currRec.offset ≠ b.bsiz := by
        rw [hcurr]
        rw [recHdrSize] at hpos
        omega
      have hnew : key.length ≠ t.cmpc key := hm ▸ hne.symm
      have hs : (putSizes b key value stat).recSize = t.size (lastKey [] pre) ∧
          (putSizes b key value stat).nextRecShrink = (t.cmpc key - t.cmpc (lastKey [] pre) : Nat) := by
        simp only [putSizes, hm, if_pos hnew, if_neg hrp]
        rw [if_neg (by omega), hcurr, hrsiz, hcmpc]
        exact ⟨rfl, by omega⟩
      refine ⟨hs.2 ▸ Int.natCast_nonneg _, ?_⟩
      simp only [behindSegs, hs.1, hs.2, hcurr, if_true] at hbehind
      rw [if_neg (by omega), if_neg (by omega)] at hbehind
      cases hbehind
      have henc := h.laid.enc_suffix.reheaded env hcle hck (by omega)
      rw [show b.bsiz - blkEnd pre = (recHdrSize + (t.cmpc key - t.cmpc (lastKey [] pre))) +
        (b.bsiz - blkEnd pre - (recHdrSize + (t.cmpc key - t.cmpc (lastKey [] pre)))) by omega, GdsBlk.bytes_add,
        List.drop_left' (GdsBlk.length_bytes _ _ _)] at henc
      simp only [List.singleton_append, segBytes, List.flatMap_cons, List.flatMap_nil, Seg.bytes, List.append_nil, hm]
      rw [show (t.size (lastKey [] pre) : Int) - (t.cmpc key - t.cmpc (lastKey [] pre) : Nat) = (t.size key : Nat) by omega,
        KeyAt.ushort_natCast (by omega)]
      convert henc using 3 <;> omega

end NewRecord

/-- The array for a record is one that a caller makes. -/
theorem recordSegs_callerArray (env : KillEnv) {stat : SrchStat} (newRec : Bool) {behind : List Seg} {s : PutSizes} (n : Int)
    (hoff : blkHdrSize ≤ stat.currRec.offset) (hshrink : 0 ≤ s.nextRecShrink) (h : behindSegs env b stat newRec s = some behind) :
    CallerArray false false (recordSegs env key value stat n ++ behind) := by
  obtain ⟨new, rest, rfl, hrest⟩ : ∃ (new : List (List UInt8)) (rest : Option (Nat × Nat)),
      behind = new.map Seg.lit ++ (rest.map fun r => Seg.buf r.1 r.2).toList ∧ ∀ r, rest = some r → blkHdrSize ≤ r.1 := by
    cases newRec <;> simp only [behindSegs, if_true, Bool.false_eq_true, if_false] at h <;> split_ifs at h <;> cases h
    · exact ⟨[], none, rfl, (by intros; rename_i h; cases h)⟩
    · refine ⟨[], some (_, _), rfl, fun r hr => ?_⟩
      obtain rfl := Option.some.inj hr
      change blkHdrSize ≤ Int.toNat _
      omega
    · exact ⟨[], none, rfl, (by intros; rename_i h; cases h)⟩
    · refine ⟨[_], some (_, _), rfl, fun r hr => ?_⟩
      obtain rfl := Option.some.inj hr
      change blkHdrSize ≤ Int.toNat _
      omega
  have hcall : CallerArray false false (insertSegs (some (stat.currRec.offset - blkHdrSize))
      ([recHdr env (ushort n) stat.prevRec.mtch, key.drop stat.prevRec.mtch] ++ (if value = [] then [] else [value]) ++ new) rest) :=
    callerArray_insert (fun _ => rfl) hrest (by intro h; cases h)
  refine cast (congrArg _ ?_) hcall
  rw [insertSegs, recordSegs]
  split <;> simp

/-- Where a leaf is written, the entry of the key is new or has another value, and all others are as they were. -/
theorem gvcstPutLeaf_wf {env : PutEnv} (h : WfBlk b es) (hleaf : b.levl = 0) (hb : b.bsiz ≤ env.blkSize) (hkey : isKey key = true)
    (hstart : key.head? ≠ some keyDelimiter) (hlen : key.length ≤ 1020) (hrc : env.rcSetFragment = 0) {segs : List Seg}
    (hput : gvcstPutLeaf env b key value (naiveSearch b key) = .written segs) :
    ∃ pre old post, es = pre ++ old ++ post ∧ (∀ e ∈ pre, e.before key = true) ∧ (old = [] ∨ ∃ v, old = [⟨some key, v⟩]) ∧
      WfBlk (buildBlk b 0 segs) (pre ++ ⟨some key, value⟩ :: post) ∧ CallerArray false false segs ∧ blkSegCnt segs ≤ env.blkSize := by
  obtain ⟨behind, hbehind, rfl, hcnt⟩ := gvcstPutLeaf_written hrc hput
  have hsz := env.blkSize_lt
  obtain ⟨pre, old, post, rfl, hpre, hpost, hprev, hcurr, ⟨rfl, hmtch, hne⟩ | ⟨v, rfl, hm⟩⟩ := leaf_split h hleaf hkey
  · -- a new record
    have hlcp := lcp_le_right (lastKey [] pre) key
    rw [decide_eq_true hne.symm] at hbehind
    rw [List.append_nil] at h
    have hoff := blkEnd_ge pre
    have hn : (putSizes b key value (naiveSearch b key)).newRecSize = (recHdrSize + (key.length - lcp (lastKey [] pre) key) + value.length : Nat) := by
      simp only [putSizes, if_pos hne.symm, hprev]
      omega
    have hsmall := recordSegs_small (Nat.lt_of_le_of_lt hcnt hsz)
    rw [hprev] at hsmall
    obtain ⟨hshrink, henc⟩ := behindSegs_enc h hleaf hkey hpre hpost hcurr hmtch hne hlen (Nat.lt_of_le_of_lt hb hsz) hbehind
    obtain ⟨h1, h2, h3⟩ := recHdr_spec env.toKillEnv hsmall (hlcp.trans hlen)
    have hcontents := h.contents
    rw [decide_eq_true hleaf] at hcontents
    refine ⟨pre, [], post, by simp, hpre, .inl rfl, ⟨buildBlk_laid ?_, ?_, fun _ e he => ?_⟩, ?_, hcnt⟩
    · rw [segBytes_append, hn, KeyAt.recordSegs_bytes b key value _ hsmall, hcurr, hprev, List.append_assoc]
      refine enc_append.2 ⟨_, _, rfl, h.laid.enc_prefix, _, _, h1, ?_, h2.trans ?_, h3, henc⟩
      · simp [Entry.data, Entry.cmpc, Entry.keyBytes]
      · simp [Entry.size, Entry.data, Entry.cmpc, Entry.keyBytes, Nat.add_assoc]
    · refine hcontents.append_leaf ⟨hkey, lastKey_lt hkey hpre, (by intros; rename_i h; cases h), ?_⟩
      cases post with
      | nil => rfl
      | cons t rest =>
        have hc := hcontents.append (List.cons_ne_nil _ _)
        cases hk : t.key with
        | none => simp [Contents, hk] at hc
        | some kt =>
          simp only [Contents, hk] at hc ⊢
          exact ⟨hc.1, hpost t (by simp) kt hk, hc.2.2⟩
    · rcases List.mem_append.1 he with he | he
      · exact h.start hleaf e (by simp [he])
      · rcases List.mem_cons.1 he with rfl | he
        · exact hstart
        · exact h.start hleaf e (by simp [he])
    · exact recordSegs_callerArray env.toKillEnv true _ (hcurr ▸ hoff) hshrink hbehind
  · -- another value
    rw [List.append_assoc, List.singleton_append] at h
    have hat : KeyAt b key v pre post (naiveSearch b key) := ⟨h, hleaf, hprev, hcurr, hm⟩
    have hsmall := recordSegs_small (Nat.lt_of_le_of_lt hcnt hsz)
    have hsizes := hat.putSizes_eq value
    rw [decide_eq_false (by simp [hm])] at hbehind
    obtain ⟨behind', hbehind', hbytes⟩ := @KeyAt.behindSegs_update env.toKillEnv b (naiveSearch b key) (putSizes b key value (naiveSearch b key))
      (by rw [hsizes])
    obtain rfl := Option.some.inj (hbehind'.symm.trans hbehind)
    rw [hsizes] at hbytes hcnt hbehind ⊢
    refine ⟨pre, [⟨some key, v⟩], post, by simp, hpre, .inr ⟨v, rfl⟩, @KeyAt.buildBlk_wf env.toKillEnv _ _ _ _ _ _ _ hat _ ?_ (Nat.lt_of_le_of_lt hcnt hsz),
      recordSegs_callerArray env.toKillEnv false _ ((Nat.le_add_right _ _).trans hat.le_offset) le_rfl hbehind, hcnt⟩
    rw [segBytes_append, KeyAt.recordSegs_bytes b key value _ hsmall, hbytes, KeyAt.newBytes, List.append_assoc]

/-- After a set the leaf has the value at the key, and at all other keys the values it had, also when it is built in its own buffer. -/
theorem gvcstGetLeaf_put {env : PutEnv} {senv : SrchEnv} (h : WfBlk b es) (hleaf : b.levl = 0) (hb : b.bsiz ≤ env.blkSize)
    (hsenv : senv.blkSize = env.blkSize) (hexp : senv.expandPrevKey = false) (hkey : isKey key = true)
    (hstart : key.head? ≠ some keyDelimiter) (hlen : key.length ≤ 1020) (hrc : env.rcSetFragment = 0) {segs : List Seg}
    (hput : gvcstPutLeaf env b key value (naiveSearch b key) = .written segs) (benv : BuildEnv) (tn ctn : Nat) :
    let new := (gvcstBlkBuild benv (some ⟨b, tn⟩) none ctn (leafElem b segs)).2.blk
    (∃ es', WfBlk new es') ∧ new.bsiz ≤ env.blkSize ∧ ∀ k, isKey k = true → ∀ stat altkey,
      gvcstGetLeaf senv new k stat altkey = if k = key then .ok (some value) else gvcstGetLeaf senv b k stat altkey := by
  obtain ⟨pre, old, post, rfl, hpre, hold, hwf, hcall, hcnt⟩ := gvcstPutLeaf_wf h hleaf hb hkey hstart hlen hrc hput
  have hnew : (gvcstBlkBuild benv (some ⟨b, tn⟩) none ctn (leafElem b segs)).2.blk = buildBlk b 0 segs :=
    gvcstBlkBuild_eq_buildBlk benv ⟨b, tn⟩ ctn hcall rfl rfl
  simp only [hnew]
  refine ⟨⟨_, hwf⟩, hcnt, fun k hk stat altkey => ?_⟩
  rw [gvcstGetLeaf_eq hwf rfl (hsenv ▸ hcnt) hk hexp, gvcstGetLeaf_eq h hleaf (hsenv ▸ hb) hk hexp, leafValue_set hpre hold]
  split <;> rfl

/-- A subscript between `^A` and `^A(1)`, whose record shares a byte more with the new one. -/
theorem gvcstGetLeaf_put_between :
    let segs : List Seg := [.buf 16 8, .lit [9, 0, 2, 0], .lit [191, 9, 0, 0], .lit [50], .lit [8, 0, 3, 0], .buf 29 13]
    let new := (gvcstBlkBuild ⟨false, 5, ⟨leafOfThree, 3⟩, 0⟩ (some ⟨leafOfThree, 3⟩) none 5 (leafElem leafOfThree segs)).2.blk
    gvcstPutLeaf smallIncr.toPutEnv leafOfThree [65, 0, 191, 9, 0, 0] [50] (naiveSearch leafOfThree [65, 0, 191, 9, 0, 0]) = .written segs ∧
      gvcstGetLeaf ⟨512, false, 64, false⟩ new [65, 0, 191, 9, 0, 0] ⟨⟨0, 0⟩, ⟨0, 0⟩⟩ [] = .ok (some [50]) := by
  intro segs new
  have hput : gvcstPutLeaf smallIncr.toPutEnv leafOfThree [65, 0, 191, 9, 0, 0] [50] (naiveSearch leafOfThree [65, 0, 191, 9, 0, 0]) =
      .written segs := by decide
  have h := @gvcstGetLeaf_put leafOfThree _ _ _ _ ⟨512, false, 64, false⟩ leafOfThree_wf rfl (by decide) rfl rfl (by decide) (by decide)
    (by decide) rfl segs hput ⟨false, 5, ⟨leafOfThree, 3⟩, 0⟩ 3 5
  exact ⟨hput, h.2.2 _ (by decide) _ _⟩

end Gtm
