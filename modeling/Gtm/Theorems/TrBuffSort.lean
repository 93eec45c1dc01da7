import Gtm.Lemmas.SortTrBuff

/-!
# A transaction buffer is merged by update number

The records of the regions are interleaved in the order of their update numbers, in front of the TCOM records. The bound from which the least update
number is searched is one more than the greatest one, in 32 bits.
-/

namespace Gtm

namespace SortBuf

open RunMerge

variable {beyond : Nat → Nat} {b : List UInt8} {off : Nat}

/-! ## Reading -/

theorem u32At_lt {w : Nat} (h : u32At b off = some w) : w < 2 ^ 32 := by
  rw [u32At] at h
  split at h
  · rename_i b₀ b₁ b₂ b₃ _ _
    have h₀ := b₀.toNat_lt
    have h₁ := b₁.toNat_lt
    have h₂ := b₂.toNat_lt
    have h₃ := b₃.toNat_lt
    rw [← Option.some.inj h]
    omega
  · cases h

theorem u32At_append {w : Nat} (x : List UInt8) (h : u32At b off = some w) : u32At (b ++ x) off = some w := by
  rw [u32At] at h ⊢
  split at h
  · rename_i b₀ b₁ b₂ b₃ l hl
    have hoff : off ≤ b.length := by
      by_contra hgt
      rw [List.drop_eq_nil_of_le (by omega)] at hl
      cases hl
    rw [List.drop_append_of_le_length hoff, hl]
    exact h
  · cases h

/-- Reading behind what comes before. -/
theorem u32At_append_right (x b : List UInt8) (off : Nat) : u32At (x ++ b) (x.length + off) = u32At b off := by
  rw [u32At, u32At, ← List.drop_drop, List.drop_left]

theorem RecAt.append {r : JnlRec} (x : List UInt8) (h : RecAt b off r) (hfit : off + r.bytes.length ≤ b.length) : RecAt (b ++ x) off r where
  word := by
    obtain ⟨w, hw, htype, hlen⟩ := h.word
    exact ⟨w, u32At_append x hw, htype, hlen⟩
  pos := h.pos
  bytes := by
    rw [List.drop_append_of_le_length (by omega), List.take_append_of_le_length (by rw [List.length_drop]; omega), h.bytes]

variable {rs q : List JnlRec}

/-- The records of a buffer are in a longer one too. -/
theorem Chain.append {p : JnlRec → Prop} (x : List UInt8) (h : Chain p b off rs) (hfit : off + size rs ≤ b.length) :
    Chain p (b ++ x) off rs := by
  induction rs generalizing off with
  | nil => trivial
  | cons r rs ih =>
    rw [size_cons] at hfit
    exact ⟨h.1.append x (by omega), fun hr => u32At_append x (h.2.1 hr), ih h.2.2 (by omega)⟩

/-! ## Buffers that are balanced -/

/-- A buffer of the records of regions, and then a TCOM record for each of them. -/
structure Balanced (beyond : Nat → Nat) (b : List UInt8) (qs : List (List JnlRec)) (ts : List JnlRec) : Prop where
  records : Records beyond b 0 (qs.flatten ++ ts)
  length : b.length = size (qs.flatten ++ ts)
  walk : Walkable (qs.flatten ++ ts)
  regions : ∀ q ∈ qs, IsRegion beyond q
  tcoms : ∀ t ∈ ts, isUpdate beyond t.rectype = false
  count : ts.length = qs.length
  pos : 0 < qs.length

/-- At the end of the buffer there is a TCOM record with a number of participants. -/
structure EndsWith (b : List UInt8) (participants : Nat) : Prop where
  long : TCOM_SIZE ≤ b.length
  participants : u16At b (b.length - TCOM_SIZE + NUM_PARTICIPANTS) = some participants
  tcom : ∃ w, u32At b (b.length - TCOM_SIZE) = some w ∧ jrecType w = JRT_TCOM

variable {qs : List (List JnlRec)} {ts : List JnlRec}

theorem inOrder_cons {r : JnlRec} : InOrder (r :: rs) ↔ (∀ x ∈ rs, r.updateNum ≤ x.updateNum) ∧ InOrder rs := List.pairwise_cons

theorem sorted_updFold (rs : List JnlRec) (s : Scan) :
    (updFold rs s).alreadySorted = true ↔ s.alreadySorted = true ∧ (∀ r ∈ rs, s.prevUpdnum ≤ r.updateNum) ∧ InOrder rs := by
  induction rs generalizing s with
  | nil => simp [updFold, InOrder]
  | cons r rs ih =>
    have hstep : updFold (r :: rs) s = updFold rs { s with
      alreadySorted := s.alreadySorted && decide (s.prevUpdnum ≤ r.updateNum), maxUpdnum := max s.maxUpdnum r.updateNum,
      prevUpdnum := r.updateNum } := rfl
    rw [hstep, ih, inOrder_cons, Bool.and_eq_true, decide_eq_true_iff]
    constructor
    · rintro ⟨⟨hs, hprev⟩, hall, horder⟩
      refine ⟨hs, fun x hx => ?_, hall, horder⟩
      rcases List.mem_cons.1 hx with rfl | hx
      · exact hprev
      · exact hprev.trans (hall x hx)
    · rintro ⟨hs, hprev, hall, horder⟩
      exact ⟨⟨hs, hprev r List.mem_cons_self⟩, hall, horder⟩

theorem IsRegion.pos (h : IsRegion beyond q) : q ≠ [] := by
  cases h
  exact List.cons_ne_nil _ _

theorem IsRegion.updates (h : IsRegion beyond q) : ∀ r ∈ q, isUpdate beyond r.rectype = true := by
  obtain ⟨-, update, others⟩ := h
  intro r hr
  rcases List.mem_cons.1 hr with rfl | hr
  · exact update
  · exact (others r hr).2

/-- What is in the way of a region in a sequence of them. -/
theorem flatten_split {i : Nat} (h : qs[i]? = some q) :
    qs.flatten = (qs.take i).flatten ++ (q ++ (qs.drop (i + 1)).flatten) ∧ (qs.take (i + 1)).flatten = (qs.take i).flatten ++ q := by
  obtain ⟨hi, rfl⟩ := List.getElem?_eq_some_iff.1 h
  constructor
  · conv_lhs => rw [← List.take_append_drop i qs, List.drop_eq_getElem_cons hi]
    rw [List.flatten_append, List.flatten_cons]
  · rw [List.take_succ_eq_append_getElem hi, List.flatten_append]
    simp

/-- What the walk over a balanced buffer finds. -/
theorem Balanced.scan (h : Balanced beyond b qs ts) (regs : List RegJrecInfo) (hregs : qs.length ≤ regs.length) :
    ∃ s, scanRecords beyond b (b.length + 1) 0 b.length (scanStart regs) = some (some 0, s) ∧ s.balanced = 0 ∧ s.regIdx = qs.length ∧
      (s.alreadySorted = true ↔ InOrder qs.flatten) ∧ s.maxUpdnum = (updFold qs.flatten (scanStart regs)).maxUpdnum ∧
      s.regs.length = regs.length ∧
      ∀ x, AllPoint (b ++ x) (s.regs.modify (s.regIdx - 1) fun r => { r with endOffset := s.firstTcomOffset }) qs := by
  obtain ⟨s₁, hs₁, hmarked⟩ := (marked_start regs).regions h.regions (by simpa using hregs)
  rw [List.nil_append] at hmarked
  have hmany := h.pos
  have hcount := h.count
  obtain ⟨t, ts', rfl⟩ : ∃ t ts', ts = t :: ts' := List.exists_cons_of_ne_nil fun hnil => by
    rw [hnil, List.length_nil] at hcount
    omega
  have hsize : 0 < size qs.flatten := by
    have hups := length_le_size (chain_append.1 h.records).1
    have hne : 0 < qs.flatten.length := by
      obtain ⟨q, qs', hqs⟩ : ∃ q qs', qs = q :: qs' := List.exists_cons_of_ne_nil fun hnil => by
        rw [hnil, List.length_nil] at hmany
        omega
      have := List.length_pos_of_ne_nil (h.regions q (by rw [hqs]; exact List.mem_cons_self)).pos
      rw [hqs, List.flatten_cons, List.length_append]
      omega
    omega
  rw [List.length_cons] at hcount
  have hends := scanFold_ends (size qs.flatten) (s := s₁) h.tcoms (by rw [hmarked.balanced]; omega) hmarked.tcom hsize
  have hfold : scanFold beyond 0 (qs.flatten ++ t :: ts') (scanStart regs) =
      some { s₁ with balanced := s₁.balanced - (ts'.length + 1), firstTcomOffset := size qs.flatten } := by
    rw [scanFold_append]
    change (scanFold beyond (size ([] : List (List JnlRec)).flatten) qs.flatten (scanStart regs)).bind _ = _
    rw [hs₁, Option.bind_some, Nat.zero_add, hends]
  have hfuel : (qs.flatten ++ t :: ts').length < b.length + 1 := by
    have := length_le_size h.records
    rw [h.length]
    omega
  have hrun := scanRecords_records h.records h.walk hfold hfuel
  rw [← h.length] at hrun
  have hsorted := sorted_updFold qs.flatten (scanStart regs)
  refine ⟨_, hrun, ?_, hmarked.idx, ?_, hmarked.greatest, hmarked.length, fun x i q hq => ?_⟩
  · dsimp only
    rw [hmarked.balanced]
    omega
  · rw [hmarked.sorted, hsorted]
    exact ⟨fun hall => hall.2.2, fun horder => ⟨rfl, fun r _ => Nat.zero_le _, horder⟩⟩
  · have hi := (List.getElem?_eq_some_iff.1 hq).1
    obtain ⟨r, hr, hstart, hend⟩ := hmarked.starts i hi
    obtain ⟨hflat, htake⟩ := flatten_split hq
    rw [hmarked.idx]
    have hentry : (s₁.regs.modify (qs.length - 1) fun r => { r with endOffset := size qs.flatten })[i]? =
        some ⟨size (qs.take i).flatten, size (qs.take (i + 1)).flatten⟩ := by
      rw [List.getElem?_modify, hr, Option.map_eq_map, Option.map_some]
      by_cases hlast : qs.length - 1 = i
      · rw [if_pos hlast, show i + 1 = qs.length by omega, List.take_length, ← hstart]
      · rw [if_neg hlast, ← hstart, ← hend (by omega)]
    have hchain := (chain_append.1 h.records).1
    rw [hflat, chain_append, chain_append, Nat.zero_add] at hchain
    have hinside : size (qs.take i).flatten + size q ≤ b.length := by
      rw [h.length, size_append, hflat, size_append, size_append]
      omega
    refine ⟨_, hentry, ?_, ?_, ?_⟩
    · exact (hchain.2.1.imp fun r hr _ => (h.regions q (List.mem_of_getElem? hq)).updates r hr).append x hinside
    · rw [htake, size_append]
    · dsimp only
      rw [htake, size_append, List.length_append]
      omega

/-! ## The merge of a balanced buffer -/

theorem Balanced.first (h : Balanced beyond b qs ts) : ∃ w, u32At b 0 = some w ∧ isTupd beyond (jrecType w) = true ∧ forwptr w < b.length := by
  have hmany := h.pos
  obtain ⟨q, qs', hqs⟩ : ∃ q qs', qs = q :: qs' := List.exists_cons_of_ne_nil fun hnil => by
    rw [hnil, List.length_nil] at hmany
    omega
  obtain ⟨first, -, -⟩ := h.regions q (by rw [hqs]; exact List.mem_cons_self)
  rename_i t us
  have hrecords := h.records
  have hlength := h.length
  subst hqs
  rw [List.flatten_cons, List.cons_append, List.cons_append] at hrecords hlength
  obtain ⟨w, hw, htype, hlen⟩ := hrecords.1.word
  refine ⟨w, hw, by rw [htype]; exact first, ?_⟩
  have hrest := length_le_size hrecords.2.2
  have hcount := h.count
  rw [hlength, size_cons]
  rw [List.length_append] at hrest
  omega

/-- The array, allocated anew when it has fewer entries than there are participants. -/
def arrayFor (fresh : Nat → RegJrecInfo) (regs : List RegJrecInfo) (participants : Nat) : List RegJrecInfo :=
  if regs.length < participants then (List.range participants).map fresh else regs

@[simp] theorem length_arrayFor (fresh : Nat → RegJrecInfo) (regs : List RegJrecInfo) (n : Nat) :
    (arrayFor fresh regs n).length = max regs.length n := by
  unfold arrayFor
  by_cases h : regs.length < n
  · rw [if_pos h, List.length_map, List.length_range, Nat.max_eq_right h.le]
  · rw [if_neg h, Nat.max_eq_left (not_lt.1 h)]

/-- The greatest update number. -/
def maxUpd (rs : List JnlRec) : Nat := (updFold rs (scanStart [])).maxUpdnum

theorem maxUpdnum_updFold (rs : List JnlRec) (regs : List RegJrecInfo) : (updFold rs (scanStart regs)).maxUpdnum = maxUpd rs :=
  (updFold_congr rs (scanStart regs) (scanStart []) rfl rfl rfl).2.1

theorem le_maxUpd {r : JnlRec} (h : r ∈ rs) : r.updateNum ≤ maxUpd rs := (updFold_max rs (scanStart [])).2 r h

/-- What the code does with a balanced buffer of less than `2 ^ 31` bytes. -/
theorem Balanced.replSortTrBuff_eq (h : Balanced beyond b qs ts) (fresh : Nat → RegJrecInfo) (st : Statics) (hlen : b.length < 2 ^ 31)
    {p : Nat} (hp : EndsWith b p) (hone : p ≠ 1) (hroom : qs.length ≤ max st.regJrecInfoArray.length p) :
    ∃ (sorted : Bool) (regs : List RegJrecInfo) (x : List UInt8), (sorted = true ↔ InOrder qs.flatten) ∧ AllPoint (b ++ x) regs qs ∧
      replSortTrBuff beyond fresh st b = if sorted then some (b, { st with regJrecInfoArray := regs })
        else (mergeRegions (b ++ x) p (maxUpd qs.flatten) (b.length + 1) regs 0 b).map fun (buf, regs) => (buf, ⟨regs, b ++ x⟩) := by
  obtain ⟨w, hw, htupd, hfirst⟩ := h.first
  obtain ⟨htcom, hparts, w', hw', htype⟩ := hp
  have hpos := h.pos
  obtain ⟨s, hscan, hbal, hidx, hsorted, hmax, -, hpoint⟩ := h.scan (arrayFor fresh st.regJrecInfoArray p) (by simpa using hroom)
  have hmax' : s.maxUpdnum = maxUpd qs.flatten := hmax.trans (maxUpdnum_updFold _ _)
  refine ⟨s.alreadySorted, _, st.privateTrBuff.drop b.length, hsorted, hpoint _, ?_⟩
  have htlen : ((TCOM_SIZE : Nat) : Int) ≤ b.length := by omega
  have hmore : ¬ (forwptr w : Int) = b.length := by omega
  rw [scanStart, arrayFor] at hscan
  rw [replSortTrBuff, if_pos hlen, hw]
  simp only [Option.bind_eq_bind, Option.bind_some, if_neg hmore, htupd, not_true_eq_false, if_false, if_pos htlen, Int.toNat_natCast, hparts, hw',
    htype, ne_eq, if_neg hone, hscan]
  rw [if_neg (by simp [hbal]), if_pos (by omega), hmax', Option.map_eq_bind]
  rfl

/-! ## The bound that wraps -/

theorem maxUpd_le {n : Nat} (h : ∀ r ∈ rs, r.updateNum ≤ n) : maxUpd rs ≤ n := by
  have hgen (s : Scan) (hs : s.maxUpdnum ≤ n) : (updFold rs s).maxUpdnum ≤ n := by
    induction rs generalizing s with
    | nil => exact hs
    | cons r rs ih => exact ih (fun x hx => h x (List.mem_cons_of_mem _ hx)) _ (max_le hs (h r List.mem_cons_self))
  exact hgen _ (Nat.zero_le _)

/-- From the bound 0 no region is found. -/
theorem findMin_zero {priv : List UInt8} {regs : List RegJrecInfo} {regIdx : Nat} {m m' : MinScan} (hmin : m.minVal = 0) (hnext : m.nextMinVal = 0)
    (h : findMin priv regs regIdx m = some m') :
    m'.minUpdnumReg = m.minUpdnumReg ∧ ((m.sortingNeeded = true ∨ ∃ r ∈ regs, r.workingOffset < r.endOffset) → m'.sortingNeeded = true) := by
  induction regs generalizing regIdx m with
  | nil =>
    obtain rfl := Option.some.inj h
    refine ⟨rfl, ?_⟩
    rintro (hor | ⟨r, hr, -⟩)
    · exact hor
    · cases hr
  | cons r regs ih =>
    rw [findMin] at h
    by_cases hdone : r.endOffset ≤ r.workingOffset
    · rw [if_pos hdone] at h
      obtain ⟨hreg, hneeded⟩ := ih hmin hnext h
      refine ⟨hreg, fun hor => hneeded (hor.imp_right ?_)⟩
      rintro ⟨r', hr', hlt⟩
      rcases List.mem_cons.1 hr' with rfl | hr'
      · omega
      · exact ⟨r', hr', hlt⟩
    · rw [if_neg hdone] at h
      obtain ⟨v, -, h⟩ := Option.bind_eq_some_iff.1 h
      have hstep : minStep regIdx v m = { m with sortingNeeded := true } := by
        rw [minStep, if_neg (by simp [hmin]), if_neg (by simp [hnext])]
      rw [hstep] at h
      obtain ⟨hreg, hneeded⟩ := ih (m := { m with sortingNeeded := true }) hmin hnext h
      exact ⟨hreg, fun _ => hneeded (.inl rfl)⟩

/-- When the bound has wrapped to 0, the records of the first region only are copied, and what follows them, until there is no result. -/
theorem mergeRegions_wraps {priv buf : List UInt8} {participants maxUpdnum dst fuel : Nat} {regs : List RegJrecInfo} {r : RegJrecInfo}
    (hwrap : (maxUpdnum + 1) % 2 ^ 32 = 0) (hmany : 2 ≤ participants) (hr : regs[1]? = some r) (hlt : r.workingOffset < r.endOffset) :
    mergeRegions priv participants maxUpdnum fuel regs dst buf = none := by
  induction fuel generalizing regs dst buf with
  | zero => rfl
  | succ fuel ih =>
    rw [mergeRegions, hwrap]
    cases hm : findMin priv (regs.take participants) 0 ⟨0, 0, 0, false⟩ with
    | none => rfl
    | some m =>
      obtain ⟨hreg, hneeded⟩ := findMin_zero rfl rfl hm
      have hmem : r ∈ regs.take participants := by
        refine List.mem_of_getElem? (i := 1) ?_
        rw [List.getElem?_take_of_lt (by omega), hr]
      simp only [Option.bind_eq_bind, Option.bind_some, hneeded (.inr ⟨r, hmem, hlt⟩), if_true, hreg]
      refine Option.bind_eq_none_iff.2 fun r₀ _ => Option.bind_eq_none_iff.2 fun w _ => Option.bind_eq_none_iff.2 fun next _ =>
        Option.bind_eq_none_iff.2 fun buf' _ => ih ?_
      rw [List.getElem?_set_ne (by omega), hr]

/-! ## Buffers of whole records -/

/-- A record by itself. -/
structure Whole (r : JnlRec) : Prop where
  word : ∃ w, u32At r.bytes 0 = some w ∧ jrecType w = r.rectype ∧ forwptr w = r.bytes.length
  long : JREC_PREFIX_SIZE ≤ r.bytes.length

/-- The records of the transaction in every region, with their update numbers, those of a region in order, and a TCOM record for each region. -/
structure Transaction (beyond : Nat → Nat) (qs : List (List JnlRec)) (ts : List JnlRec) : Prop where
  whole : ∀ r ∈ qs.flatten ++ ts, Whole r
  numbers : ∀ r ∈ qs.flatten, u32At r.bytes UPDATE_NUM = some r.updateNum
  regions : ∀ q ∈ qs, IsRegion beyond q
  ordered : ∀ q ∈ qs, InOrder q
  tcoms : ∀ t ∈ ts, t.rectype = JRT_TCOM ∧ t.bytes.length = TCOM_SIZE
  count : ts.length = qs.length
  many : 2 ≤ qs.length
  last : ∃ t, ts.getLast? = some t ∧ u16At t.bytes NUM_PARTICIPANTS = some qs.length

theorem isUpdate_tcom (beyond : Nat → Nat) : isUpdate beyond JRT_TCOM = false := by
  simp [isUpdate, updateFlags, jrtUpdate, JRT_TCOM, TCOMREC, SETREC, KILLREC, ZKILLREC, ZTWORMREC, LGTRIGREC, ZTRIGREC]

theorem u16At_append_right (x b : List UInt8) (off : Nat) : u16At (x ++ b) (x.length + off) = u16At b off := by
  rw [u16At, u16At, ← List.drop_drop, List.drop_left]

/-- Whole records one after the other. -/
theorem chain_recBytes {p : JnlRec → Prop} (x : List UInt8) (h : ∀ r ∈ rs, Whole r)
    (hp : ∀ r ∈ rs, p r → u32At r.bytes UPDATE_NUM = some r.updateNum) : Chain p (x ++ recBytes rs) x.length rs := by
  induction rs generalizing x with
  | nil => trivial
  | cons r rs ih =>
    obtain ⟨⟨w, hw, htype, hlen⟩, hlong⟩ := h r List.mem_cons_self
    have hrest := ih (x ++ r.bytes) (fun y hy => h y (List.mem_cons_of_mem _ hy)) fun y hy => hp y (List.mem_cons_of_mem _ hy)
    rw [List.append_assoc, List.length_append] at hrest
    have hread {n v : Nat} (hv : u32At r.bytes n = some v) : u32At (x ++ recBytes (r :: rs)) (x.length + n) = some v := by
      rw [u32At_append_right]
      exact u32At_append _ hv
    refine ⟨⟨⟨w, hread hw, htype, hlen⟩, ?_, ?_⟩, fun hr => hread (hp r List.mem_cons_self hr), hrest⟩
    · have : JREC_PREFIX_SIZE = 24 := rfl
      omega
    · rw [List.drop_left, recBytes_cons, List.take_left]

theorem walkable_of_whole (h : ∀ r ∈ rs, Whole r) : Walkable rs := by
  induction rs with
  | nil => trivial
  | cons r rs ih =>
    have hlong := (h r List.mem_cons_self).long
    refine ⟨?_, ih fun y hy => h y (List.mem_cons_of_mem _ hy)⟩
    rw [size_cons]
    omega

theorem Transaction.balanced (h : Transaction beyond qs ts) : Balanced beyond (recBytes (qs.flatten ++ ts)) qs ts where
  records := chain_recBytes [] h.whole fun r hr hup => by
    rcases List.mem_append.1 hr with hr | hr
    · exact h.numbers r hr
    · rw [(h.tcoms r hr).1, isUpdate_tcom] at hup
      cases hup
  length := rfl
  walk := walkable_of_whole h.whole
  regions := h.regions
  tcoms := fun t ht => by rw [(h.tcoms t ht).1, isUpdate_tcom]
  count := h.count
  pos := Nat.lt_of_succ_lt h.many

theorem Transaction.endsWith (h : Transaction beyond qs ts) : EndsWith (recBytes (qs.flatten ++ ts)) qs.length := by
  obtain ⟨t, ht, hparts⟩ := h.last
  obtain ⟨ts', rfl⟩ : ∃ ts', ts = ts' ++ [t] := ⟨_, (List.dropLast_append_getLast? t ht).symm⟩
  have hmem : t ∈ qs.flatten ++ (ts' ++ [t]) := by simp
  obtain ⟨htype, hlen⟩ := h.tcoms t (by simp)
  obtain ⟨w, hw, hwtype, -⟩ := (h.whole t hmem).word
  have hbytes : recBytes (qs.flatten ++ (ts' ++ [t])) = recBytes (qs.flatten ++ ts') ++ t.bytes := by simp
  have hback : (recBytes (qs.flatten ++ ts') ++ t.bytes).length - TCOM_SIZE = (recBytes (qs.flatten ++ ts')).length + 0 := by
    rw [List.length_append]
    omega
  rw [hbytes]
  refine ⟨by rw [List.length_append]; omega, ?_, w, ?_, hwtype.trans htype⟩
  · rw [hback, Nat.add_zero, u16At_append_right, hparts]
  · rw [hback, u32At_append_right, hw]

theorem Transaction.numbers_lt (h : Transaction beyond qs ts) {r : JnlRec} (hr : r ∈ qs.flatten) : r.updateNum < 2 ^ 32 := u32At_lt (h.numbers r hr)

/-- A transaction's buffer is merged if and only if it is shorter than `2 ^ 31` bytes and is in order already, or no update number is the greatest
one of 32 bits. -/
theorem replSortTrBuff_sorts (h : Transaction beyond qs ts) (fresh : Nat → RegJrecInfo) (st : Statics) (hlen : size (qs.flatten ++ ts) < 2 ^ 32) :
    (∃ out st', replSortTrBuff beyond fresh st (recBytes (qs.flatten ++ ts)) = some (recBytes out ++ recBytes ts, st') ∧
        Interleaving qs out ∧ InOrder out) ↔
      size (qs.flatten ++ ts) < 2 ^ 31 ∧ (InOrder qs.flatten ∨ ∀ r ∈ qs.flatten, r.updateNum ≠ 2 ^ 32 - 1) := by
  have hb := h.balanced
  by_cases hint : size (qs.flatten ++ ts) < 2 ^ 31
  · obtain ⟨sorted, regs, x, hsorted, hpoint, hrun⟩ := hb.replSortTrBuff_eq fresh st hint h.endsWith
      (by have := h.many; omega) (le_max_right _ _)
    by_cases horder : InOrder qs.flatten
    · refine iff_of_true ⟨qs.flatten, { st with regJrecInfoArray := regs }, ?_, interleaving_flatten qs, horder⟩ ⟨hint, .inl horder⟩
      rw [hrun, if_pos (hsorted.2 horder), recBytes_append]
    · rw [hrun, if_neg (fun hs => horder (hsorted.1 hs))]
      by_cases hmax : ∀ r ∈ qs.flatten, r.updateNum ≠ 2 ^ 32 - 1
      · have hbound : maxUpd qs.flatten ≤ 2 ^ 32 - 2 := maxUpd_le fun r hr => by
          have := h.numbers_lt hr
          have := hmax r hr
          omega
        have hupd : ∀ q ∈ qs, ∀ x ∈ q, x.updateNum < (maxUpd qs.flatten + 1) % 2 ^ 32 := fun q hq r hr => by
          have := le_maxUpd (List.mem_flatten.2 ⟨q, hq, hr⟩)
          rw [Nat.mod_eq_of_lt (by omega)]
          omega
        have hroom : size qs.flatten ≤ (recBytes (qs.flatten ++ ts)).length := by
          rw [recBytes_append, List.length_append]
          exact Nat.le_add_right _ _
        have hfuel : qs.flatten.length < (recBytes (qs.flatten ++ ts)).length + 1 :=
          Nat.lt_succ_of_le ((length_le_size (chain_append.1 hb.records).1).trans hroom)
        obtain ⟨out, regs', hmerge, hinter, hin⟩ := mergeRegions_spec [] _ _ hupd hpoint hroom hfuel
        refine iff_of_true ⟨out, ⟨regs', recBytes (qs.flatten ++ ts) ++ x⟩, ?_, hinter, hin h.ordered⟩ ⟨hint, .inr hmax⟩
        have hdrop : (recBytes (qs.flatten ++ ts)).drop (size out) = recBytes ts := by
          rw [← size_perm hinter.perm, recBytes_append]
          exact List.drop_left
        change mergeRegions _ _ _ _ regs 0 (recBytes (qs.flatten ++ ts)) = _ at hmerge
        rw [hmerge, hdrop]
        rfl
      · have hwrap : (maxUpd qs.flatten + 1) % 2 ^ 32 = 0 := by
          push Not at hmax
          obtain ⟨r, hr, heq⟩ := hmax
          have hlow := le_maxUpd hr
          have hhigh : maxUpd qs.flatten ≤ 2 ^ 32 - 1 := maxUpd_le fun r hr => Nat.le_sub_one_of_lt (h.numbers_lt hr)
          omega
        have hmany := h.many
        obtain ⟨q, hq⟩ : ∃ q, qs[1]? = some q := ⟨_, List.getElem?_eq_getElem (by omega)⟩
        obtain ⟨r, hr, hpoints⟩ := hpoint 1 q hq
        have hlt : r.workingOffset < r.endOffset := by
          by_contra hge
          exact (h.regions q (List.mem_of_getElem? hq)).pos (hpoints.nil_iff.1 (not_lt.1 hge))
        rw [mergeRegions_wraps hwrap hmany hr hlt]
        refine iff_of_false ?_ fun hcond => ?_
        · rintro ⟨_, _, hnone, -⟩
          cases hnone
        · exact hcond.2.elim horder hmax
  · refine iff_of_false ?_ fun hcond => hint hcond.1
    rintro ⟨out, st', hrun, -⟩
    obtain ⟨w, hw, htupd, -⟩ := hb.first
    have hneg : ¬ ((TCOM_SIZE : Nat) : Int) ≤ ((recBytes (qs.flatten ++ ts)).length : Int) - 2 ^ 32 := by
      have : (recBytes (qs.flatten ++ ts)).length < 2 ^ 32 := hlen
      omega
    have hone : ¬ (forwptr w : Int) = ((recBytes (qs.flatten ++ ts)).length : Int) - 2 ^ 32 := by
      have : (recBytes (qs.flatten ++ ts)).length < 2 ^ 32 := hlen
      omega
    have hlong : ¬ (recBytes (qs.flatten ++ ts)).length < 2 ^ 31 := hint
    rw [replSortTrBuff, if_neg hlong, hw] at hrun
    simp only [Option.bind_eq_bind, Option.bind_some, if_neg hone, htupd, not_true_eq_false, if_false, if_neg hneg, Option.bind_none] at hrun
    cases hrun

/-- A record of 44 bytes. -/
def shortRec (rectype updateNum : Nat) : JnlRec :=
  ⟨[UInt8.ofNat rectype, 44, 0, 0] ++ List.replicate 36 0 ++
      [UInt8.ofNat updateNum, UInt8.ofNat (updateNum / 2 ^ 8), UInt8.ofNat (updateNum / 2 ^ 16), UInt8.ofNat (updateNum / 2 ^ 24)],
    rectype, updateNum⟩

/-- A TCOM record. -/
def tcomRec (participants : Nat) : JnlRec :=
  ⟨[17, 56, 0, 0] ++ List.replicate 38 0 ++ [UInt8.ofNat participants, 0] ++ List.replicate 12 0, 17, 0⟩

theorem shortRec_transaction (n₁ n₂ n₃ : Nat) (h₁ : u32At (shortRec 15 n₁).bytes 40 = some n₁) (h₂ : u32At (shortRec 16 n₂).bytes 40 = some n₂)
    (h₃ : u32At (shortRec 15 n₃).bytes 40 = some n₃) (hle : n₁ ≤ n₂) :
    Transaction (fun _ => 0) [[shortRec 15 n₁, shortRec 16 n₂], [shortRec 15 n₃]] [tcomRec 2, tcomRec 2] where
  whole r hr := by
    simp only [List.flatten_cons, List.flatten_nil, List.cons_append, List.nil_append, List.mem_cons, List.not_mem_nil, or_false] at hr
    rcases hr with rfl | rfl | rfl | rfl | rfl
    · exact ⟨⟨15 + 256 * 44, rfl, rfl, rfl⟩, by simp [shortRec, JREC_PREFIX_SIZE]⟩
    · exact ⟨⟨16 + 256 * 44, rfl, rfl, rfl⟩, by simp [shortRec, JREC_PREFIX_SIZE]⟩
    · exact ⟨⟨15 + 256 * 44, rfl, rfl, rfl⟩, by simp [shortRec, JREC_PREFIX_SIZE]⟩
    · exact ⟨⟨17 + 256 * 56, rfl, rfl, rfl⟩, by decide⟩
    · exact ⟨⟨17 + 256 * 56, rfl, rfl, rfl⟩, by decide⟩
  numbers r hr := by
    simp only [List.flatten_cons, List.flatten_nil, List.cons_append, List.nil_append, List.mem_cons, List.not_mem_nil, or_false] at hr
    rcases hr with rfl | rfl | rfl
    · exact h₁
    · exact h₂
    · exact h₃
  regions q hq := by
    have hfirst : isTupd (fun _ => 0) 15 = true ∧ isUpdate (fun _ => 0) 15 = true := by decide
    simp only [List.mem_cons, List.not_mem_nil, or_false] at hq
    rcases hq with rfl | rfl
    · refine ⟨hfirst.1, hfirst.2, fun u hu => ?_⟩
      rw [List.mem_singleton] at hu
      subst hu
      exact (show isTupd (fun _ => 0) 16 = false ∧ isUpdate (fun _ => 0) 16 = true by decide)
    · exact ⟨hfirst.1, hfirst.2, fun u hu => nomatch hu⟩
  ordered q hq := by
    simp only [List.mem_cons, List.not_mem_nil, or_false] at hq
    rcases hq with rfl | rfl
    · simpa [InOrder, shortRec] using hle
    · simp [InOrder]
  tcoms t ht := by
    simp only [List.mem_cons, List.not_mem_nil, or_false, or_self] at ht
    subst ht
    exact ⟨rfl, rfl⟩
  count := rfl
  many := Nat.le_refl 2
  last := ⟨tcomRec 2, rfl, rfl⟩

theorem replSortTrBuff_sorts_two :
    ∃ out st', replSortTrBuff (fun _ => 0) (fun _ => ⟨0, 0⟩) ⟨[], []⟩
        (recBytes ([[shortRec 15 1, shortRec 16 3], [shortRec 15 2]].flatten ++ [tcomRec 2, tcomRec 2])) =
          some (recBytes out ++ recBytes [tcomRec 2, tcomRec 2], st') ∧
      Interleaving [[shortRec 15 1, shortRec 16 3], [shortRec 15 2]] out ∧ InOrder out :=
  (replSortTrBuff_sorts (shortRec_transaction 1 3 2 rfl rfl rfl (by decide)) _ _ (by decide +kernel)).2
    ⟨by decide +kernel, .inr (by decide +kernel)⟩

/-- With an update number of 32 one bits the merge goes on past the end of the buffer. -/
theorem replSortTrBuff_bound_wraps :
    Transaction (fun _ => 0) [[shortRec 15 (2 ^ 32 - 2), shortRec 16 (2 ^ 32 - 1)], [shortRec 15 1]] [tcomRec 2, tcomRec 2] ∧
      replSortTrBuff (fun _ => 0) (fun _ => ⟨0, 0⟩) ⟨[], []⟩
        (recBytes ([[shortRec 15 (2 ^ 32 - 2), shortRec 16 (2 ^ 32 - 1)], [shortRec 15 1]].flatten ++ [tcomRec 2, tcomRec 2])) = none :=
  ⟨shortRec_transaction _ _ 1 rfl rfl rfl (by decide), by decide +kernel⟩

end SortBuf

end Gtm
