import Gtm.Lemmas.KillRepair

/-!
# What a kill makes of a block

The checks of `gvcst_kill_blk` pass on a well-formed block. What it does depends on the range and on what is left: nothing for an
empty range, no new block where nothing is left (the root apart), and otherwise the rebuilt block.
-/

namespace Gtm

open CommonPrefix

/-! ## The killed records -/

theorem recOffs_append (off : Nat) (prior : List UInt8) (es es' : List Entry) :
    recOffs off prior (es ++ es') = recOffs off prior es ++ recOffs (endOf off prior es) (lastKey prior es) es' := by
  induction es generalizing off prior with
  | nil => rfl
  | cons e es ih => simp [recOffs, endOf, lastKey, ih]

theorem recOffs_length (off : Nat) (prior : List UInt8) (es : List Entry) : (recOffs off prior es).length = es.length := by
  induction es generalizing off prior with
  | nil => rfl
  | cons e es ih => simp [recOffs, ih]

theorem recOffs_bound {off : Nat} {prior : List UInt8} {es : List Entry} {o : Nat} (ho : o ∈ recOffs off prior es) :
    off ≤ o ∧ o < endOf off prior es := by
  induction es generalizing off prior with
  | nil => simp [recOffs] at ho
  | cons e es ih =>
    have hsize := e.recHdrSize_le_size prior
    have hge := endOf_ge (off + e.size prior) e.keyBytes es
    rw [recHdrSize] at hsize
    rw [endOf]
    rcases List.mem_cons.1 ho with rfl | ho
    · omega
    · have := ih ho
      omega

section Split

variable {α : Type} {p : Nat → Bool} {os : List Nat} {l : List α}

theorem filter_zip_all (hlen : l.length = os.length) (h : ∀ o ∈ os, p o = true) : ((os.zip l).filter fun x => p x.1).map (·.2) = l := by
  rw [List.filter_eq_self.2 fun x hx => h _ (List.of_mem_zip hx).1]
  exact List.map_snd_zip (by omega)

theorem filter_zip_none (h : ∀ o ∈ os, p o = false) : ((os.zip l).filter fun x => p x.1).map (·.2) = [] := by
  rw [List.filter_eq_nil_iff.2 fun x hx => by simp [h _ (List.of_mem_zip hx).1], List.map_nil]

end Split

section Killed

variable {b : GdsBlk} {searchKey : List UInt8} {low high : SrchRec} {rightExtra : Bool} {before gone rest : List Entry}

theorem lastOff_lt (es : List Entry) : lastOff es < blkEnd es := by
  rcases List.eq_nil_or_concat es with rfl | ⟨pre, e, rfl⟩
  · decide
  · have hsize := e.recHdrSize_le_size (lastKey [] pre)
    rw [recHdrSize] at hsize
    rw [List.concat_eq_append, lastOff_snoc, blkEnd_snoc]
    omega

theorem le_lastOff {es : List Entry} {o : Nat} (ho : o ∈ recOffs blkHdrSize [] es) : o ≤ lastOff es := by
  rcases List.eq_nil_or_concat es with rfl | ⟨pre, e, rfl⟩
  · simp [recOffs] at ho
  · rw [List.concat_eq_append, recOffs_append, List.mem_append] at ho
    rw [List.concat_eq_append, lastOff_snoc]
    rcases ho with ho | ho
    · exact (recOffs_bound ho).2.le
    · simp only [recOffs, List.mem_singleton] at ho
      exact ho.le

/-- Which records are in the killed range. -/
theorem Left.inRange_iff (h : Left b searchKey low high rightExtra before gone rest) :
    (∀ o ∈ recOffs blkHdrSize [] before, inRange low high rightExtra o = false) ∧
    (∀ o ∈ recOffs (blkEnd before) (lastKey [] before) gone, inRange low high rightExtra o = true) ∧
    ∀ o ∈ recOffs (blkEnd (before ++ gone)) (lastKey [] (before ++ gone)) rest, inRange low high rightExtra o = false := by
  obtain ⟨range, behind, hgone, -, hextra, hcut⟩ := h.cut
  have hlow : low.offset < blkEnd before := hcut.lowOff ▸ lastOff_lt before
  refine ⟨fun o ho => ?_, fun o ho => ?_, fun o ho => ?_⟩
  · have hle := le_lastOff ho
    rw [← hcut.lowOff] at hle
    simp [inRange, not_lt.2 hle]
  · have hge := (recOffs_bound ho).1
    have hlt : low.offset < o := by omega
    rw [hgone, recOffs_append, ← endOf_append, ← hcut.highOff, List.mem_append] at ho
    rcases ho with ho | ho
    · have hub := (recOffs_bound ho).2
      rw [← endOf_append, ← hcut.highOff] at hub
      simp [inRange, hlt, hub]
    · cases rightExtra with
      | false => simp [extra, recOffs] at ho
      | true =>
        obtain ⟨t, behind', rfl⟩ := List.exists_cons_of_ne_nil (hextra rfl)
        simp only [extra, if_true, List.take_succ_cons, List.take_zero, recOffs, List.mem_singleton] at ho
        subst ho
        simp [inRange, hlt]
  · have hge := (recOffs_bound ho).1
    have hright : blkEnd (before ++ gone) = endOf high.offset (lastKey [] (before ++ range)) (behind.take (extra rightExtra)) := by
      rw [hgone, ← List.append_assoc, blkEnd_append, hcut.highOff]
    have hle := endOf_ge high.offset (lastKey [] (before ++ range)) (behind.take (extra rightExtra))
    cases rightExtra with
    | false =>
      have hnot : ¬o < high.offset := by omega
      simp [inRange, hnot]
    | true =>
      have hlt := endOf_lt_of_ne_nil high.offset (lastKey [] (before ++ range))
        (show behind.take (extra true) ≠ [] by simpa [extra] using hextra rfl)
      have hnot : ¬o < high.offset := by omega
      have hne : o ≠ high.offset := by omega
      simp [inRange, hnot, hne]

/-- The killed records and those that are left. -/
theorem Left.split (h : Left b searchKey low high rightExtra before gone rest) {α : Type} {l₁ l₂ l₃ : List α}
    (h1 : l₁.length = before.length) (h2 : l₂.length = gone.length) (h3 : l₃.length = rest.length) :
    killed low high rightExtra (before ++ gone ++ rest) (l₁ ++ l₂ ++ l₃) = l₂ ∧
      outside low high rightExtra (before ++ gone ++ rest) (l₁ ++ l₂ ++ l₃) = l₁ ++ l₃ := by
  obtain ⟨hb, hg, hr⟩ := h.inRange_iff
  have hzip : (recOffs blkHdrSize [] (before ++ gone ++ rest)).zip (l₁ ++ l₂ ++ l₃) =
      (recOffs blkHdrSize [] before).zip l₁ ++ (recOffs (blkEnd before) (lastKey [] before) gone).zip l₂ ++
        (recOffs (blkEnd (before ++ gone)) (lastKey [] (before ++ gone)) rest).zip l₃ := by
    rw [recOffs_append, recOffs_append, List.zip_append (by simp [recOffs_length, h1, h2]),
      List.zip_append (by simp [recOffs_length, h1])]
  have hnot : ∀ {os : List Nat} {v : Bool}, (∀ o ∈ os, inRange low high rightExtra o = v) →
      ∀ o ∈ os, (!inRange low high rightExtra o) = !v := fun h o ho => by rw [h o ho]
  constructor
  · rw [killed, hzip, List.filter_append, List.filter_append, List.map_append, List.map_append, filter_zip_none hb,
      filter_zip_all (by simp [recOffs_length, h2]) hg, filter_zip_none hr, List.nil_append, List.append_nil]
  · have hb' := hnot hb
    have hg' := hnot hg
    have hr' := hnot hr
    rw [outside, hzip, List.filter_append, List.filter_append, List.map_append, List.map_append,
      filter_zip_all (p := fun o => !inRange low high rightExtra o) (by simp [recOffs_length, h1]) hb',
      filter_zip_none (p := fun o => !inRange low high rightExtra o) hg',
      filter_zip_all (p := fun o => !inRange low high rightExtra o) (by simp [recOffs_length, h3]) hr', List.append_nil]

end Killed

/-! ## The children of the killed records -/

theorem number_of_hasBytes {b : GdsBlk} {p : Nat} {l : List UInt8} (h : b.HasBytes p l) : b.number p l.length = bytesNumber l := by
  induction l generalizing p with
  | nil => rfl
  | cons a l ih =>
    obtain ⟨h1, h2⟩ := GdsBlk.hasBytes_cons.1 h
    rw [List.length_cons, GdsBlk.number, bytesNumber, h1, ih h2]

/-- The block number at the end of a record. -/
theorem readBlkId_slot {b : GdsBlk} {off : Nat} {prior : List UInt8} {e : Entry} {es : List Entry} (hl : Laid b off prior (e :: es))
    (hval : e.val.length = sizeofBlkId b.longBlkId) : b.readBlkId (off + e.size prior - sizeofBlkId b.longBlkId) = e.child b.longBlkId := by
  have hbytes := hl.2.2.1
  rw [Entry.data, GdsBlk.hasBytes_append] at hbytes
  have hplace : off + recHdrSize + (e.keyBytes.drop (e.cmpc prior)).length = off + e.size prior - sizeofBlkId b.longBlkId := by
    rw [Entry.size, Entry.data, List.length_append]
    omega
  have hnum := number_of_hasBytes hbytes.2
  rw [hplace, hval] at hnum
  rw [GdsBlk.readBlkId, Entry.child, hnum]

/-- The children of the deleted records, in order. -/
theorem deletedChildren_eq {env : KillEnv} {b : GdsBlk} {off fuel : Nat} {prior : List UInt8} {gone rest : List Entry}
    (hl : Laid b off prior (gone ++ rest)) (hval : ∀ e ∈ gone, e.val.length = sizeofBlkId b.longBlkId)
    (hgood : ∀ e ∈ gone, badBlkNum env (e.child b.longBlkId) = false) (hsz : b.bsiz ≤ env.blkSize) (hfuel : gone.length ≤ fuel) :
    deletedChildren env b (endOf off prior gone) fuel off = .ok (gone.map (Entry.child b.longBlkId)) := by
  induction gone generalizing off prior fuel with
  | nil => cases fuel <;> simp [deletedChildren, endOf]
  | cons e gone ih =>
    obtain ⟨fuel, rfl⟩ : ∃ m, fuel = m + 1 := ⟨fuel - 1, by simp at hfuel; omega⟩
    have he := hval e (by simp)
    have hsize : recHdrSize + sizeofBlkId b.longBlkId ≤ e.size prior := by
      rw [Entry.size, Entry.data, List.length_append]
      omega
    have hge := endOf_ge (off + e.size prior) e.keyBytes gone
    have hread := readBlkId_slot hl he
    obtain ⟨hrsiz, -, -, hle, hrest⟩ := hl
    have hn := two_le_sizeofBlkId b.longBlkId
    rw [deletedChildren, endOf, if_pos (by omega), hrsiz]
    simp only [hread, hgood e (by simp)]
    rw [if_neg (by omega), if_neg (by simp), ih hrest (fun e' he' => hval e' (List.mem_cons_of_mem _ he'))
      (fun e' he' => hgood e' (List.mem_cons_of_mem _ he')) (by simp at hfuel; omega)]
    rfl

/-! ## The outcomes -/

/-- Every record of a block holds something behind its header. -/
theorem Contents.size_gt {level0 : Bool} {n : Nat} {prior : List UInt8} {pre post : List Entry} {e : Entry}
    (h : Contents level0 n prior (pre ++ e :: post)) (hprior : prior ≠ [] → isKey prior = true) (hn : 2 ≤ n) :
    recHdrSize < e.size (lastKey prior pre) := by
  have hc := h.append (by simp)
  have hkey := h.lastKey_isKey (by simp) hprior
  rw [Entry.size, Entry.data, List.length_append]
  cases hk : e.key with
  | none =>
    simp only [Contents, hk] at hc
    omega
  | some k =>
    simp only [Contents, hk] at hc
    have hle := cmpc_add_two_le hkey hc.1 hc.2.1
    simp only [Entry.keyBytes, Entry.cmpc, hk, Option.getD_some, List.length_drop]
    omega

section Outcome

variable {env : KillEnv} {b : GdsBlk} {searchKey : List UInt8} {low high : SrchRec} {rightExtra : Bool} {before gone rest : List Entry}
  {marks : List Bool} {firstOff : Nat}

/-- The pointers `gvcst_kill_blk` starts with. -/
theorem Left.ptrs (h : Left b searchKey low high rightExtra before gone rest) : low.offset = lastOff before ∧
    (if low.offset = 0 then blkHdrSize else low.offset + b.rsiz low.offset) = blkEnd before ∧
    (if rightExtra = true ∧ high.offset < b.bsiz then high.offset + b.rsiz high.offset else high.offset) =
      blkEnd (before ++ gone) ∧ low.offset ≠ high.offset := by
  obtain ⟨range, behind, hgone, hrest, hextra, hcut⟩ := h.cut
  have hsplit : before ++ range ++ behind = before ++ gone ++ rest := by
    rw [hgone, hrest]
    simp
  have hl : Laid b blkHdrSize [] (before ++ range ++ behind) := hsplit ▸ h.wf.laid
  refine ⟨hcut.lowOff, hcut.delPtr hl, by rw [hcut.rightPtr hl hextra, hgone], ?_⟩
  have hlt := lastOff_lt before
  rw [hcut.lowOff, hcut.highOff]
  exact (hlt.trans_le (ChainParts.delPtr_le before range)).ne

theorem lastOff_eq_zero_iff (es : List Entry) : lastOff es = 0 ↔ es = [] := by
  constructor
  · intro h
    by_contra hne
    have hge : 16 ≤ endOf blkHdrSize [] es.dropLast := blkEnd_ge es.dropLast
    rw [lastOff, if_neg hne] at h
    omega
  · rintro rfl
    rfl

section
variable (h : Left b searchKey low high rightExtra before gone rest)
include h

theorem Left.right_eq_bsiz_iff : blkEnd (before ++ gone) = b.bsiz ↔ rest = [] := by
  have hl := h.wf.laid.append
  constructor
  · intro heq
    by_contra hne
    exact (hl.off_lt hne).ne heq
  · rintro rfl
    exact hl

/-- The records before the range end where a record with something behind its header ends. -/
theorem Left.delPtr_gt (hbefore : before ≠ []) : low.offset + recHdrSize < blkEnd before := by
  rw [h.ptrs.1]
  have hc := h.wf.contents
  rcases List.eq_nil_or_concat before with rfl | ⟨pre, e, rfl⟩
  · exact absurd rfl hbefore
  · rw [List.concat_eq_append] at hc ⊢
    rw [List.append_assoc, List.append_assoc] at hc
    have hgt := hc.size_gt nofun (two_le_sizeofBlkId _)
    rw [lastOff_snoc, blkEnd_snoc]
    omega

section
variable (htp : TpBlock env b (before ++ gone ++ rest) marks firstOff) (hsz : b.bsiz ≤ env.blkSize)
include htp hsz

/-- The children go to `gvcst_delete_blk` in an index block. -/
theorem Left.children :
    (if b.levl ≠ 0 then deletedChildren env b (blkEnd (before ++ gone)) b.bsiz (blkEnd before) else .ok []) =
      .ok (if b.levl ≠ 0 then gone.map (Entry.child b.longBlkId) else []) := by
  by_cases hlevl : b.levl ≠ 0
  · have hc := h.wf.contents
    rw [decide_eq_false hlevl] at hc
    have hl := h.wf.laid
    have hlen := length_le_endOf blkHdrSize [] (before ++ gone ++ rest)
    rw [hl.end_eq] at hlen
    rw [List.append_assoc] at hl
    rw [if_pos hlevl, if_pos hlevl, blkEnd_append]
    exact deletedChildren_eq hl.append (fun e he => hc.val_length (by simp [he])) (fun e he => htp.children hlevl e (by simp [he])) hsz
      (by simp at hlen; omega)
  · rw [if_neg hlevl, if_neg hlevl]

/-- What `gvcst_kill_blk` does behind its checks. -/
theorem gvcstKillBlk_checked :
    gvcstKillBlk env b searchKey low high rightExtra firstOff = if gone = [] then ⟨.normal, [], none⟩
      else if before ++ rest = [] then
        if env.isRoot = true then
          ⟨.normal, if b.levl ≠ 0 then gone.map (Entry.child b.longBlkId) else [], some (.root (buildBlk b 1
            [.lit (recHdr env (bstarRecSize b.longBlkId) 0), .lit (List.replicate (sizeofBlkId b.longBlkId) 0)]) 0)⟩
        else ⟨.deleteParent, [], none⟩
      else killRebuild env b searchKey low high rightExtra low.offset (blkEnd before) high.offset
        (blkEnd (before ++ gone)) firstOff (if b.levl ≠ 0 then gone.map (Entry.child b.longBlkId) else []) := by
  obtain ⟨hlow, hdel, hright, hne⟩ := h.ptrs
  have hchildren := h.children htp hsz
  have hlt : low.offset < blkEnd before := hlow ▸ lastOff_lt before
  have hle := ChainParts.delPtr_le before gone
  have htop : blkEnd (before ++ gone) ≤ b.bsiz := h.wf.laid.append.off_le
  have hzero : low.offset = 0 ↔ before = [] := by rw [hlow, lastOff_eq_zero_iff]
  have hend := h.right_eq_bsiz_iff
  have hhdr := h.delPtr_gt
  have hempty : blkEnd before = blkEnd (before ++ gone) ↔ gone = [] := by
    refine ⟨fun heq => ?_, fun hg => by rw [hg, List.append_nil]⟩
    by_contra hg
    have := endOf_lt_of_ne_nil (blkEnd before) (lastKey [] before) hg
    rw [← blkEnd_append] at this
    omega
  -- the check of the record before the range
  have hcheck : ¬(low.offset ≠ 0 ∧ (blkEnd before ≤ low.offset + recHdrSize ∨ blkEnd (before ++ gone) < blkEnd before)) := by
    rintro ⟨h0, h1⟩
    have := hhdr fun hb => h0 (hzero.2 hb)
    omega
  have hwhole : low.offset = 0 ∧ blkEnd (before ++ gone) = b.bsiz ↔ before ++ rest = [] := by
    rw [hzero, hend, List.append_eq_nil_iff]
  simp only [gvcstKillBlk, hdel, hright, hchildren]
  rw [if_neg hne, if_neg (by simp [htp.blk]), if_neg (by omega)]
  by_cases hgone : gone = []
  · rw [if_pos hgone]
    by_cases hall : before ++ rest = []
    · -- a leaf without records
      obtain ⟨rfl, rfl⟩ := List.append_eq_nil_iff.1 hall
      subst hgone
      have hlevl : b.levl = 0 := by
        have hc := h.wf.contents
        simpa [Contents] using hc
      have hbsiz : b.bsiz = blkHdrSize := (hend.2 rfl).symm
      rw [if_pos ⟨hzero.2 rfl, hend.2 rfl, hbsiz⟩, if_neg (by simp [hlevl])]
    · rw [if_neg fun hc => hall (hwhole.1 ⟨hc.1, hc.2.1⟩), if_neg fun hc => hall (hwhole.1 ⟨hc.1, hc.2.1⟩), if_neg hcheck,
        if_pos (hempty.2 hgone)]
  · have hne' : ¬blkEnd before = blkEnd (before ++ gone) := fun heq => hgone (hempty.1 heq)
    rw [if_neg hgone]
    by_cases hall : before ++ rest = []
    · have hw := hwhole.2 hall
      have hbsiz : b.bsiz ≠ blkHdrSize := by
        obtain ⟨rfl, rfl⟩ := List.append_eq_nil_iff.1 hall
        intro heq
        exact hne' (by rw [hw.2, heq]; rfl)
      rw [if_pos hall, if_neg fun hc => hbsiz hc.2.2]
      cases hroot : env.isRoot with
      | false => rw [if_pos ⟨hw.1, hw.2, rfl⟩, if_neg (by simp)]
      | true => rw [if_neg (by simp), if_neg hcheck, if_neg hne', if_pos hw, if_pos rfl]
    · rw [if_neg fun hc => hall (hwhole.1 ⟨hc.1, hc.2.1⟩), if_neg fun hc => hall (hwhole.1 ⟨hc.1, hc.2.1⟩), if_neg hcheck,
        if_neg hne', if_neg fun hc => hall (hwhole.1 hc), if_neg ?_, if_neg hall]
      -- records are left before the range or behind it
      rw [List.append_eq_nil_iff, not_and_or] at hall
      rcases hall with hb | hr
      · have hlt' : blkHdrSize < blkEnd before := endOf_lt_of_ne_nil _ _ hb
        omega
      · have hlt' : blkEnd (before ++ gone) < b.bsiz := lt_of_le_of_ne htop fun heq => hr (hend.1 heq)
        have := blkEnd_ge before
        omega

end

/-- What the record behind the range grows by. -/
theorem Left.growth_eq {t : Entry} {r : List Entry} (hr : rest = t :: r) :
    (keyGrowth b low high rightExtra high.offset (blkEnd (before ++ gone))).2.1 +
        (keyGrowth b low high rightExtra high.offset (blkEnd (before ++ gone))).2.2 =
      t.cmpc (lastKey [] (before ++ gone)) - t.cmpc (lastKey [] before) := by
  obtain ⟨range, behind, hgone, hrest, hextra, hcut⟩ := h.cut
  have hsplit : before ++ range ++ behind = before ++ gone ++ rest := by
    rw [hgone, hrest]
    simp
  have hspec := (keyGrowth_spec hcut (hsplit ▸ h.wf) hextra (hrest.symm.trans hr)).2.1
  rw [← hgone] at hspec
  exact hspec

end

theorem slots_eq_nil {n off : Nat} {prior : List UInt8} {es : List Entry} {ms : List Bool} (h : ∀ m ∈ ms, m = false) :
    slots n off prior es ms = [] := by
  induction es generalizing off prior ms with
  | nil => simp [slots]
  | cons e es ih =>
    cases ms with
    | nil => simp [slots]
    | cons m ms =>
      obtain rfl := h m (by simp)
      simpa [slots] using ih fun m hm => h m (List.mem_cons_of_mem _ hm)

theorem marks_of_slots_nil {n off : Nat} {prior : List UInt8} {es : List Entry} {ms : List Bool} (hlen : ms.length = es.length)
    (h : slots n off prior es ms = []) : ∀ m ∈ ms, m = false := by
  induction es generalizing off prior ms with
  | nil =>
    obtain rfl := List.length_eq_zero_iff.1 hlen
    simp
  | cons e es ih =>
    cases ms with
    | nil => simp
    | cons m ms =>
      rw [slots, List.append_eq_nil_iff] at h
      intro m' hm'
      rcases List.mem_cons.1 hm' with rfl | hm'
      · by_contra hm
        simp [Bool.eq_true_of_not_eq_false hm] at h
      · exact ih (Nat.succ.inj hlen) h.2 m' hm'

/-- A block without a chain has no marked record. -/
theorem TpBlock.unmarked {es : List Entry} (htp : TpBlock env b es marks firstOff) (hwf : WfBlk b es) (hlevel : env.dollarTlevel = true)
    (hfirst : firstOff = 0) : ∀ m ∈ marks, m = false := by
  by_cases hlevl : b.levl = 0
  · exact (htp.leaf hlevl).2
  · have hc := hwf.contents
    rw [decide_eq_false hlevl] at hc
    refine marks_of_slots_nil htp.marked (show slots (sizeofBlkId b.longBlkId) blkHdrSize [] es marks = [] from ?_)
    have hhead := (htp.chain hlevel).1
    cases hs : slots (sizeofBlkId b.longBlkId) blkHdrSize [] es marks with
    | nil => rfl
    | cons p c =>
      have hge := (slots_bound (fun e he => hc.val_length he) (p := p) (by rw [hs]; simp)).1
      rw [hs, List.headD_cons] at hhead
      rw [blkHdrSize] at hge
      omega

/-- The block with its chain repaired where there is one. -/
theorem Left.repaired {mL mG mR : List Bool} (h : Left b searchKey low high rightExtra before gone rest)
    (htp : TpBlock env b (before ++ gone ++ rest) (mL ++ mG ++ mR) firstOff) (hsz : b.bsiz < 65536) (hleft : before ++ rest ≠ [])
    (hL : mL.length = before.length) (hG : mG.length = gone.length) (hR : mR.length = rest.length) : ∃ b' before' firstOff',
      (if env.dollarTlevel = true ∧ firstOff ≠ 0 then
          fixChain b low.offset (blkEnd before) (blkEnd (before ++ gone))
            (if blkEnd (before ++ gone) = b.bsiz then 0
              else (keyGrowth b low high rightExtra high.offset (blkEnd (before ++ gone))).2.1 +
                (keyGrowth b low high rightExtra high.offset (blkEnd (before ++ gone))).2.2) firstOff
        else (b, firstOff)) = (b', firstOff') ∧ SameBlk b b' ∧ Relinks before mL before' ∧ Laid b' blkHdrSize [] (before' ++ gone ++ rest) ∧
      (env.dollarTlevel = false ∨ firstOff = 0 → before' = before ∧ firstOff' = firstOff) ∧
      (env.dollarTlevel = true → firstOff ≠ 0 → b.levl ≠ 0 ∧ Repaired (sizeofBlkId b.longBlkId) b before gone rest mL mR b' firstOff' before') := by
  by_cases hchain : env.dollarTlevel = true ∧ firstOff ≠ 0
  · have hlevl : b.levl ≠ 0 := fun h0 => hchain.2 (htp.leaf h0).1
    have hc := h.wf.contents
    rw [decide_eq_false hlevl] at hc
    have hparts : ChainParts _ b before gone rest mL mG mR firstOff := ⟨rfl, h.wf.laid, hc, hL, hG, hR, htp.chain hchain.1, hsz⟩
    rw [if_pos hchain, h.ptrs.1]
    obtain ⟨b', firstOff', before', heq, hrep⟩ := hparts.repair hchain.2 hleft
      (fun hnil => if_pos (h.right_eq_bsiz_iff.2 hnil))
      (fun t r hr => (if_neg fun hend => by simp [h.right_eq_bsiz_iff.1 hend] at hr).trans (h.growth_eq hr))
    refine ⟨b', before', firstOff', heq, hrep.same, hrep.relinks, hrep.laid, ?_, fun _ _ => ⟨hlevl, hrep⟩⟩
    rintro (hd | hf)
    · rw [hchain.1] at hd
      cases hd
    · exact absurd hf hchain.2
  · rw [if_neg hchain]
    exact ⟨b, before, firstOff, rfl, .refl b, .refl hL, h.wf.laid, fun _ => ⟨rfl, rfl⟩, fun h1 h2 => absurd ⟨h1, h2⟩ hchain⟩

/-- The rebuilt block holds what is left, with a chain of what is left of the chain. -/
theorem killRebuild_eq {mL mG mR : List Bool} (h : Left b searchKey low high rightExtra before gone rest)
    (htp : TpBlock env b (before ++ gone ++ rest) (mL ++ mG ++ mR) firstOff) (hsz : b.bsiz ≤ env.blkSize) (hmax : env.blkSize < 65536)
    (hleft : before ++ rest ≠ []) (hL : mL.length = before.length) (hG : mG.length = gone.length) (hR : mR.length = rest.length)
    (deleted : List Int) : ∃ src segs before' firstCopy firstOff',
      killRebuild env b searchKey low high rightExtra low.offset (blkEnd before) high.offset
          (blkEnd (before ++ gone)) firstOff deleted =
        ⟨.normal, deleted, some (.blk (buildBlk src b.levl segs) firstCopy firstOff')⟩ ∧
      src.longBlkId = b.longBlkId ∧ Relinks before mL before' ∧
      WfBlk (buildBlk src b.levl segs) (closeBlk (decide (b.levl = 0)) (before' ++ rest)) ∧
      (env.dollarTlevel = false ∨ firstOff = 0 → before' = before) ∧ (env.dollarTlevel = true → Chain (buildBlk src b.levl segs) firstOff'
        (slots (sizeofBlkId b.longBlkId) blkHdrSize [] (closeBlk (decide (b.levl = 0)) (before' ++ rest)) (mL ++ mR))) := by
  have hsz' : b.bsiz < 65536 := by omega
  obtain ⟨b', before', firstOff', hfix, hsame, hre, hlaid, hkeep, hrep⟩ := h.repaired htp hsz' hleft hL hG hR
  have h' := h.relink hre hsame hlaid
  have hsegs := h.killSegs_eq env h' hre hsame
  have hleft' : before' ++ rest ≠ [] := by
    have hlen := (hre.shape blkHdrSize []).2.2
    intro hnil
    obtain ⟨rfl, rfl⟩ := List.append_eq_nil_iff.1 hnil
    rw [List.append_nil] at hleft
    exact hleft (List.length_eq_zero_iff.1 hlen.symm)
  have hend : blkEnd before' = blkEnd before := (hre.shape blkHdrSize []).1
  obtain ⟨hwf, -⟩ := killSegs_wf env h' hleft' (by rw [hsame.bsiz]; exact hsz')
  rw [hend, (hre.ends_eq gone).1, hsegs, hsame.levl] at hwf
  have hcnt := (killSegs_wf env h hleft hsz').2
  -- the record behind the range has something behind its header
  have hrec : ¬(blkEnd (before ++ gone) ≠ b.bsiz ∧ (keyGrowth b low high rightExtra high.offset (blkEnd (before ++ gone))).2.1 +
        (keyGrowth b low high rightExtra high.offset (blkEnd (before ++ gone))).2.2 ≠ 0 ∧
      b.bsiz ≤ blkEnd (before ++ gone) + recHdrSize) := by
    rintro ⟨h1, -, h3⟩
    cases hr : rest with
    | nil => exact h1 (h.right_eq_bsiz_iff.2 hr)
    | cons t r =>
      have hc := h.wf.contents
      have hl := h.wf.laid
      rw [hr] at hc hl
      have hgt := hc.size_gt nofun (two_le_sizeofBlkId _)
      have hle := hl.record.2.2.2
      omega
  obtain ⟨firstCopy, hout⟩ : ∃ firstCopy, killRebuild env b searchKey low high rightExtra low.offset (blkEnd before)
      high.offset (blkEnd (before ++ gone)) firstOff deleted =
      ⟨.normal, deleted, some (.blk (buildBlk b' b.levl (killSegs env b searchKey low high rightExtra (blkEnd before)
        (blkEnd (before ++ gone)))) firstCopy firstOff')⟩ := by
    simp only [killRebuild]
    simp only [killSegs] at hcnt
    rw [if_neg hrec, if_neg (not_lt.2 (hcnt.trans hsz)), hfix]
    exact ⟨_, rfl⟩
  refine ⟨b', _, before', firstCopy, firstOff', hout, hsame.longBlkId, hre, hwf, fun hc => (hkeep hc).1, fun htl => ?_⟩
  by_cases hfirst : firstOff = 0
  · -- no chain before, none behind
    have hmarks := htp.unmarked h.wf htl hfirst
    rw [slots_eq_nil fun m hm => hmarks m (by simp only [List.mem_append] at hm ⊢; tauto), (hkeep (.inr hfirst)).2, hfirst]
    exact ⟨rfl, trivial⟩
  · obtain ⟨hlevl, hrep⟩ := hrep htl hfirst
    have hc := h'.wf.contents.cut hleft'
    rw [hsame.levl, hsame.longBlkId, decide_eq_false hlevl] at hc
    rw [decide_eq_false hlevl] at hwf ⊢
    refine (chain_iff_path hwf.laid (fun e he => hc.val_length he) (two_le_sizeofBlkId _)).2 ⟨?_, hrep.path⟩
    rw [← linksOf_fst]
    exact hrep.first

end Outcome

end Gtm
