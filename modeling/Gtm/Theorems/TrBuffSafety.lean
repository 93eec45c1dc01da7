import Gtm.Theorems.TrBuffSort

/-!
# A transaction buffer that may be bad

What is received is not checked before the walk. The walk and the merge stay inside the buffer and the array when the update numbers are inside the
buffer and the counts of regions agree.
-/

namespace Gtm

namespace SortBuf

open RunMerge

variable {beyond : Nat → Nat} {b : List UInt8} {off : Nat}

/-- A record that begins the transaction of a region. -/
def begins (beyond : Nat → Nat) (r : JnlRec) : Bool := isUpdate beyond r.rectype && isTupd beyond r.rectype

/-- How many regions begin in records, and how many TCOM records there are. -/
def tupds (beyond : Nat → Nat) (rs : List JnlRec) : Nat := rs.countP (begins beyond)
def tcoms (beyond : Nat → Nat) (rs : List JnlRec) : Nat := rs.countP fun r => !isUpdate beyond r.rectype

/-- The update records. -/
def updates (beyond : Nat → Nat) (rs : List JnlRec) : List JnlRec := rs.filter fun r => isUpdate beyond r.rectype

/-- A buffer that is a balanced sequence of whole records. -/
def BalancedSeq (beyond : Nat → Nat) (b : List UInt8) : Prop :=
  ∃ rs, Chain (fun _ => False) b 0 rs ∧ size rs = b.length ∧ tupds beyond rs = tcoms beyond rs

/-- The records that the walk reaches. -/
def reached (beyond : Nat → Nat) (b : List UInt8) : Nat → (tb tlen balanced : Nat) → List JnlRec
  | 0, _, _, _ => []
  | fuel + 1, tb, tlen, balanced =>
    if tlen < JREC_PREFIX_SIZE then []
    else
      match u32At b tb with
      | none => []
      | some w =>
        let r : JnlRec := ⟨(b.drop tb).take (forwptr w), jrecType w, (u32At b (tb + UPDATE_NUM)).getD 0⟩
        if forwptr w = 0 ∨ tlen < forwptr w then []
        else if isUpdate beyond (jrecType w) then
          r :: reached beyond b fuel (tb + forwptr w) (tlen - forwptr w) (if begins beyond r then balanced + 1 else balanced)
        else if balanced = 0 then [r]
        else r :: reached beyond b fuel (tb + forwptr w) (tlen - forwptr w) (balanced - 1)

/-- The update numbers of records are inside the buffer. -/
def NumbersInside (beyond : Nat → Nat) (b : List UInt8) : Nat → List JnlRec → Prop
  | _, [] => True
  | off, r :: rs => (isUpdate beyond r.rectype = true → off + UPDATE_NUM + 4 ≤ b.length) ∧ NumbersInside beyond b (off + r.bytes.length) rs

instance NumbersInside.decidable : ∀ (off : Nat) (rs : List JnlRec), Decidable (NumbersInside beyond b off rs)
  | _, [] => isTrue trivial
  | off, r :: rs =>
    have := NumbersInside.decidable (off + r.bytes.length) rs
    inferInstanceAs (Decidable (_ ∧ _))

theorem u32At_isSome (h : off + 4 ≤ b.length) : ∃ w, u32At b off = some w := by
  have hlen : (b.drop off).length = b.length - off := List.length_drop
  rw [u32At]
  rcases hd : b.drop off with _ | ⟨b₀, _ | ⟨b₁, _ | ⟨b₂, _ | ⟨b₃, l⟩⟩⟩⟩
  case cons.cons.cons.cons => exact ⟨_, rfl⟩
  all_goals
    rw [hd] at hlen
    simp only [List.length_cons, List.length_nil] at hlen
    omega

theorem scanUpdate_spec {t : Nat} {s : Scan} (n tb : Nat) (hroom : isTupd beyond t = true → s.regIdx < s.regs.length) :
    ∃ s₁, scanUpdate beyond t n tb s = some s₁ ∧ s₁.alreadySorted = (s.alreadySorted && decide (s.prevUpdnum ≤ n)) ∧
      s₁.maxUpdnum = max s.maxUpdnum n ∧ s₁.prevUpdnum = n ∧ s₁.regs.length = s.regs.length ∧
      s₁.regIdx = s.regIdx + (if isTupd beyond t then 1 else 0) ∧ s₁.balanced = s.balanced + (if isTupd beyond t then 1 else 0 : Nat) := by
  by_cases ht : isTupd beyond t = true
  · refine ⟨_, scanUpdate_tupd ht (hroom ht), rfl, rfl, rfl, length_markBegin _ _ _, ?_, ?_⟩
    · rw [if_pos ht]
    · rw [if_pos ht]
      rfl
  · have hplain : scanUpdate beyond t n tb s = some { s with
        alreadySorted := s.alreadySorted && decide (s.prevUpdnum ≤ n), maxUpdnum := max s.maxUpdnum n, prevUpdnum := n } := by
      rw [scanUpdate, if_neg ht]
      rfl
    refine ⟨_, hplain, rfl, rfl, rfl, rfl, ?_, ?_⟩
    · rw [if_neg ht]
      rfl
    · rw [if_neg ht]
      exact (Int.add_zero _).symm

/-- What holds when the walk gets to the end of the buffer. -/
structure WalkDone (beyond : Nat → Nat) (b : List UInt8) (tb tlen balanced : Nat) (s s' : Scan) (rs : List JnlRec) : Prop where
  records : Records beyond b tb rs
  size : size rs = tlen
  walk : Walkable rs
  balanced : s'.balanced + tcoms beyond rs = balanced + tupds beyond rs
  regIdx : s'.regIdx = s.regIdx + tupds beyond rs
  sorted : s'.alreadySorted = (updFold (updates beyond rs) s).alreadySorted

/-- What the walk does while the update numbers are inside the buffer and the array is long enough. -/
theorem scanRecords_reached {fuel tb tlen balanced : Nat} {s : Scan} (hend : tb + tlen = b.length) (hfuel : tlen < fuel)
    (hbal : s.balanced = balanced) (hin : NumbersInside beyond b tb (reached beyond b fuel tb tlen balanced))
    (hroom : s.regIdx + tupds beyond (reached beyond b fuel tb tlen balanced) ≤ s.regs.length) :
    ∃ left s', scanRecords beyond b fuel tb tlen s = some (left, s') ∧
      (left = some 0 → WalkDone beyond b tb tlen balanced s s' (reached beyond b fuel tb tlen balanced)) := by
  induction fuel generalizing tb tlen balanced s with
  | zero => omega
  | succ fuel ih =>
    have hprefix : JREC_PREFIX_SIZE = 24 := rfl
    rw [scanRecords]
    rw [reached] at hin hroom ⊢
    by_cases hshort : tlen < JREC_PREFIX_SIZE
    · simp only [if_pos hshort]
      refine ⟨some tlen, s, rfl, fun hzero => ?_⟩
      obtain rfl := Option.some.inj hzero
      exact ⟨trivial, rfl, trivial, by simp [tcoms, tupds, hbal], rfl, rfl⟩
    obtain ⟨w, hw⟩ : ∃ w, u32At b tb = some w := u32At_isSome (by omega)
    simp only [if_neg hshort, hw, Option.bind_eq_bind, Option.bind_some] at hin hroom ⊢
    by_cases hbad : forwptr w = 0 ∨ tlen < forwptr w
    · rw [if_pos hbad]
      exact ⟨none, s, rfl, fun hzero => by cases hzero⟩
    simp only [if_neg hbad] at hin hroom ⊢
    set r : JnlRec := ⟨(b.drop tb).take (forwptr w), jrecType w, (u32At b (tb + UPDATE_NUM)).getD 0⟩ with hr
    have hlen : r.bytes.length = forwptr w := by
      rw [hr]
      rw [List.length_take, List.length_drop]
      omega
    have hrec : RecAt b tb r := ⟨⟨w, hw, rfl, hlen.symm⟩, by omega, by rw [hlen]⟩
    have hend' : tb + forwptr w + (tlen - forwptr w) = b.length := by omega
    by_cases hup : isUpdate beyond (jrecType w) = true
    · simp only [if_pos hup] at hin hroom ⊢
      rw [NumbersInside, hlen] at hin
      obtain ⟨n, hn⟩ : ∃ n, u32At b (tb + UPDATE_NUM) = some n := u32At_isSome (hin.1 hup)
      have hupd : r.updateNum = n := by rw [hr]; simp [hn]
      have hcount (rs : List JnlRec) : tupds beyond (r :: rs) = tupds beyond rs + if isTupd beyond (jrecType w) then 1 else 0 := by
        rw [tupds, List.countP_cons, begins, hr]
        simp [hup, tupds]
      rw [hcount] at hroom
      have hnext : isTupd beyond (jrecType w) = true → s.regIdx < s.regs.length := fun ht => by
        rw [if_pos ht] at hroom
        omega
      obtain ⟨s₁, hs₁, hsort, hmax, hprev, hregs, hidx, hbal₁⟩ := scanUpdate_spec n tb hnext
      have hbegins : (if begins beyond r = true then balanced + 1 else balanced) = balanced + if isTupd beyond (jrecType w) then 1 else 0 := by
        rw [begins, hr]
        by_cases ht : isTupd beyond (jrecType w) = true <;> simp [hup, ht]
      rw [hbegins] at hin hroom ⊢
      rw [hbal] at hbal₁
      obtain ⟨left, s', hrun, hdone⟩ := ih hend' (by omega) hbal₁ hin.2 (by rw [hregs, hidx]; omega)
      refine ⟨left, s', ?_, fun hzero => ?_⟩
      · rw [hn, Option.bind_some, hs₁, Option.bind_some, hrun]
      · have d := hdone hzero
        generalize reached beyond b fuel (tb + forwptr w) (tlen - forwptr w) (balanced + if isTupd beyond (jrecType w) then 1 else 0) = rs at d ⊢
        have hsize := d.size
        have hnot : tcoms beyond (r :: rs) = tcoms beyond rs := by
          rw [tcoms, hr]
          simp [hup, tcoms]
        have hups : updates beyond (r :: rs) = r :: updates beyond rs := List.filter_cons_of_pos hup
        refine ⟨⟨hrec, fun _ => ?_, by rw [hlen]; exact d.records⟩, ?_, ⟨?_, d.walk⟩, ?_, ?_, ?_⟩
        · rw [UpdAt, hupd, hn]
        · rw [size_cons]
          omega
        · rw [size_cons]
          omega
        · have := d.balanced
          rw [hcount]
          omega
        · rw [d.regIdx, hcount]
          omega
        · rw [d.sorted, hups]
          exact (updFold_congr _ s₁ _ (by dsimp only; rw [hsort, hupd]) (by dsimp only; rw [hmax, hupd]) (by dsimp only; rw [hprev, hupd])).1
    · simp only [if_neg hup] at hin hroom ⊢
      have hone (rs : List JnlRec) : tupds beyond (r :: rs) = tupds beyond rs ∧ tcoms beyond (r :: rs) = tcoms beyond rs + 1 ∧
          updates beyond (r :: rs) = updates beyond rs := by
        refine ⟨?_, ?_, List.filter_cons_of_neg hup⟩
        · rw [tupds, List.countP_cons, begins, hr]
          simp [hup, tupds]
        · rw [tcoms, hr]
          simp [hup, tcoms]
      have hbal₁ : (scanTcom tb s).balanced = balanced - 1 := by rw [scanTcom, hbal]
      by_cases hnone : balanced = 0
      · rw [if_pos (by omega)]
        refine ⟨some tlen, _, rfl, fun hzero => ?_⟩
        have := Option.some.inj hzero
        omega
      · rw [if_neg (by omega)]
        simp only [if_neg hnone] at hin hroom ⊢
        rw [NumbersInside, hlen] at hin
        rw [(hone _).1] at hroom
        have hbal₂ : (scanTcom tb s).balanced = ((balanced - 1 : Nat) : Int) := by omega
        obtain ⟨left, s', hrun, hdone⟩ := ih hend' (by omega) hbal₂ hin.2 hroom
        refine ⟨left, s', hrun, fun hzero => ?_⟩
        have d := hdone hzero
        generalize reached beyond b fuel (tb + forwptr w) (tlen - forwptr w) (balanced - 1) = rs at d ⊢
        have hsize := d.size
        refine ⟨⟨hrec, fun h => absurd h hup, by rw [hlen]; exact d.records⟩, ?_, ⟨?_, d.walk⟩, ?_, ?_, ?_⟩
        · rw [size_cons]
          omega
        · rw [size_cons]
          omega
        · have := d.balanced
          rw [(hone _).1, (hone _).2.1]
          omega
        · rw [d.regIdx, (hone _).1]
          rfl
        · rw [d.sorted, (hone _).2.2]
          exact (updFold_congr _ (scanTcom tb s) s rfl rfl rfl).1

/-! ## The regions of update records -/

theorem exists_regions {rs : List JnlRec} (hrs : ∀ r ∈ rs, isUpdate beyond r.rectype = true) :
    ∃ (us : List JnlRec) (qs : List (List JnlRec)), rs = us ++ qs.flatten ∧
      (∀ u ∈ us, isTupd beyond u.rectype = false ∧ isUpdate beyond u.rectype = true) ∧
      (∀ q ∈ qs, IsRegion beyond q) ∧ qs.length = tupds beyond rs := by
  induction rs with
  | nil => exact ⟨[], [], rfl, fun u hu => (nomatch hu), fun q hq => (nomatch hq), rfl⟩
  | cons r rs ih =>
    obtain ⟨us, qs, hsplit, hus, hqs, hcount⟩ := ih fun x hx => hrs x (List.mem_cons_of_mem _ hx)
    have hup := hrs r List.mem_cons_self
    by_cases ht : isTupd beyond r.rectype = true
    · refine ⟨[], (r :: us) :: qs, by rw [hsplit]; rfl, fun u hu => (nomatch hu), fun q hq => ?_, ?_⟩
      · rcases List.mem_cons.1 hq with rfl | hq
        · exact ⟨ht, hup, hus⟩
        · exact hqs q hq
      · rw [List.length_cons, hcount, tupds, tupds, List.countP_cons_of_pos (by simp [begins, ht, hup])]
    · have hno : isTupd beyond r.rectype = false := by simpa using ht
      refine ⟨r :: us, qs, by rw [hsplit]; rfl, fun u hu => ?_, hqs, ?_⟩
      · rcases List.mem_cons.1 hu with rfl | hu
        · exact ⟨hno, hup⟩
        · exact hus u hu
      · rw [hcount, tupds, tupds, List.countP_cons_of_neg (by simp [begins, hno])]

/-- Update records of which the first one begins a transaction are those of regions. -/
theorem regions_of_begins {r : JnlRec} {rs : List JnlRec} (hr : isTupd beyond r.rectype = true)
    (hrs : ∀ x ∈ r :: rs, isUpdate beyond x.rectype = true) :
    ∃ qs : List (List JnlRec), r :: rs = qs.flatten ∧ (∀ q ∈ qs, IsRegion beyond q) ∧ qs.length = tupds beyond (r :: rs) := by
  have hup := hrs r List.mem_cons_self
  obtain ⟨us, qs, hsplit, hus, hqs, hcount⟩ := exists_regions fun x hx => hrs x (List.mem_cons_of_mem _ hx)
  refine ⟨(r :: us) :: qs, by rw [hsplit]; rfl, fun q hq => ?_, ?_⟩
  · rcases List.mem_cons.1 hq with rfl | hq
    · exact ⟨hr, hup, hus⟩
    · exact hqs q hq
  · rw [List.length_cons, hcount, tupds, tupds, List.countP_cons_of_pos (by simp [begins, hr, hup])]

theorem isUpdate_of_isTupd {t : Nat} (h : isTupd beyond t = true) (htable : t < jrtUpdate.length) : isUpdate beyond t = true := by
  have hall : ∀ i : Fin 36, jrtUpdate.get i &&& TUPDREC ≠ 0 →
      jrtUpdate.get i &&& (SETREC ||| KILLREC ||| ZKILLREC ||| ZTWORMREC ||| LGTRIGREC ||| ZTRIGREC) ≠ 0 := by decide
  have hflags : updateFlags beyond t = jrtUpdate[t] := by rw [updateFlags, List.getElem?_eq_getElem htable]
  rw [isTupd, hflags, decide_eq_true_iff] at h
  rw [isUpdate, hflags, decide_eq_true_iff]
  exact hall ⟨t, htable⟩ h

/-- Every update of a chain has its number in the buffer. -/
theorem Chain.updAt {q : JnlRec → Prop} {rs : List JnlRec} {r : JnlRec} (h : Chain q b off rs) (hq : ∀ x ∈ rs, q x) (hr : r ∈ rs) :
    ∃ o, u32At b o = some r.updateNum := by
  induction rs generalizing off with
  | nil => cases hr
  | cons x rs ih =>
    rcases List.mem_cons.1 hr with rfl | hr
    · exact ⟨_, h.2.1 (hq _ List.mem_cons_self)⟩
    · exact ih h.2.2 (fun y hy => hq y (List.mem_cons_of_mem _ hy)) hr

/-! ## Safe buffers -/

/-- The update numbers that the walk reads are inside the buffer, the regions that begin fit into the array, and if the records fill the buffer in
balance and are not in order, then the TCOM records are the last ones, no region is missing, and no update number is the greatest one of 32 bits. -/
structure SafeWalk (beyond : Nat → Nat) (b : List UInt8) (participants entries : Nat) (rs : List JnlRec) : Prop where
  numbers : NumbersInside beyond b 0 rs
  regions : tupds beyond rs ≤ entries
  merge : size rs = b.length → tupds beyond rs = tcoms beyond rs → ¬ InOrder (updates beyond rs) →
    (∃ ups ts, rs = ups ++ ts ∧ (∀ r ∈ ups, isUpdate beyond r.rectype = true) ∧ ∀ t ∈ ts, isUpdate beyond t.rectype = false) ∧
      participants ≤ tupds beyond rs ∧ ∀ r ∈ updates beyond rs, r.updateNum ≠ 2 ^ 32 - 1

/-- A buffer on which nothing is done, or which can be walked and merged. -/
def Safe (beyond : Nat → Nat) (st : Statics) (b : List UInt8) : Prop :=
  ∃ w, u32At b 0 = some w ∧
    ((b.length < 2 ^ 31 ∧ forwptr w = b.length) ∨ isTupd beyond (jrecType w) = false ∨
      (b.length < 2 ^ 31 ∧ TCOM_SIZE ≤ b.length ∧ ∃ p w', u16At b (b.length - TCOM_SIZE + NUM_PARTICIPANTS) = some p ∧
        u32At b (b.length - TCOM_SIZE) = some w' ∧
        (jrecType w' ≠ JRT_TCOM ∨ p = 1 ∨
          (jrecType w < jrtUpdate.length ∧
            SafeWalk beyond b p (max st.regJrecInfoArray.length p) (reached beyond b (b.length + 1) 0 b.length 0)))))

variable {st : Statics} {p : Nat}

/-- What the walk leaves to do when the records fill the buffer in balance and are not in order. -/
theorem SafeWalk.balanced {rs : List JnlRec} {entries w : Nat} (h : SafeWalk beyond b p entries rs) (hrecords : Records beyond b 0 rs)
    (hsize : size rs = b.length) (hwalk : Walkable rs) (hcount : tupds beyond rs = tcoms beyond rs) (horder : ¬ InOrder (updates beyond rs))
    (hw : u32At b 0 = some w) (htupd : isTupd beyond (jrecType w) = true) :
    ∃ qs ts, Balanced beyond b qs ts ∧ updates beyond rs = qs.flatten ∧ qs.length = tupds beyond rs := by
  obtain ⟨⟨ups, ts, hsplit, hups, hts⟩, -, -⟩ := h.merge hsize hcount horder
  have hupdates : updates beyond rs = ups := by
    rw [hsplit, updates, List.filter_append, List.filter_eq_self.2 hups, List.filter_eq_nil_iff.2 fun t ht => by simp [hts t ht], List.append_nil]
  have htupds : tupds beyond rs = tupds beyond ups := by
    have hnone : ts.countP (begins beyond) = 0 := List.countP_eq_zero.2 fun t ht => by simp [begins, hts t ht]
    rw [hsplit, tupds, List.countP_append, hnone, Nat.add_zero, tupds]
  have htcoms : tcoms beyond rs = ts.length := by
    rw [hsplit, tcoms, List.countP_append, List.countP_eq_zero.2 fun t ht => by simp [hups t ht],
      List.countP_eq_length.2 fun t ht => by simp [hts t ht], Nat.zero_add]
  cases ups with
  | nil =>
    rw [hupdates] at horder
    exact absurd List.Pairwise.nil horder
  | cons r ups =>
    have hfirst : isTupd beyond r.rectype = true := by
      rw [hsplit] at hrecords
      obtain ⟨w', hw', htype, -⟩ := hrecords.1.word
      rw [hw] at hw'
      rw [← htype, ← Option.some.inj hw']
      exact htupd
    obtain ⟨qs, hqs, hregions, hlen⟩ := regions_of_begins hfirst hups
    have hpos : 0 < qs.length := by
      rw [hlen, tupds, List.countP_cons_of_pos (by simp [begins, hfirst, hups r List.mem_cons_self])]
      omega
    rw [hsplit, hqs] at hrecords hsize hwalk
    exact ⟨qs, ts, ⟨hrecords, hsize.symm, hwalk, hregions, hts, by omega, hpos⟩, hupdates.trans hqs, by omega⟩

theorem AllPoint.take {priv : List UInt8} {regs : List RegJrecInfo} {qs : List (List JnlRec)} (h : AllPoint priv regs qs) (n : Nat) :
    AllPoint priv regs (qs.take n) := by
  intro i q hq
  rw [List.getElem?_take] at hq
  by_cases hi : i < n
  · rw [if_pos hi] at hq
    exact h i q hq
  · rw [if_neg hi] at hq
    cases hq

/-- The merge of regions with update numbers below the greatest one of 32 bits ends and keeps the length. -/
theorem mergeRegions_safe {qs : List (List JnlRec)} {regs : List RegJrecInfo} {x : List UInt8} (hpoint : AllPoint (b ++ x) regs qs)
    (hp : p ≤ qs.length) (hmax : ∀ r ∈ qs.flatten, r.updateNum < 2 ^ 32 - 1) (hroom : size qs.flatten ≤ b.length)
    (hcount : qs.flatten.length ≤ size qs.flatten) :
    ∃ b' regs', mergeRegions (b ++ x) p (maxUpd qs.flatten) (b.length + 1) regs 0 b = some (b', regs') ∧ b'.length = b.length := by
  have hbound : maxUpd qs.flatten ≤ 2 ^ 32 - 2 := maxUpd_le fun r hr => Nat.le_sub_one_of_lt (hmax r hr)
  have hparts : qs.flatten = (qs.take p).flatten ++ (qs.drop p).flatten := by rw [← List.flatten_append, List.take_append_drop]
  have hsize := congrArg size hparts
  have hlength := congrArg List.length hparts
  rw [size_append] at hsize
  rw [List.length_append] at hlength
  have hupd : ∀ q ∈ qs.take p, ∀ r ∈ q, r.updateNum < (maxUpd qs.flatten + 1) % 2 ^ 32 := fun q hq r hr => by
    have := le_maxUpd (List.mem_flatten.2 ⟨q, List.mem_of_mem_take hq, hr⟩)
    omega
  obtain ⟨out, regs', hrun, hinter, -⟩ := mergeRegions_spec [] b (b.length + 1) hupd (hpoint.take p) (by omega)
    (by omega)
  rw [List.length_take, Nat.min_eq_left hp] at hrun
  have hout := size_perm hinter.perm
  refine ⟨_, regs', hrun, ?_⟩
  rw [List.length_append, List.length_drop]
  change size out + _ = _
  omega

/-- The first record begins a region. -/
theorem tupds_pos {rs : List JnlRec} {w : Nat} (hrecords : Records beyond b 0 rs) (hsize : 0 < size rs) (hw : u32At b 0 = some w)
    (htupd : isTupd beyond (jrecType w) = true) (htable : jrecType w < jrtUpdate.length) : 0 < tupds beyond rs := by
  cases rs with
  | nil => exact absurd hsize (Nat.lt_irrefl 0)
  | cons r rs =>
    obtain ⟨w', hw', htype, -⟩ := hrecords.1.word
    rw [hw] at hw'
    obtain rfl := Option.some.inj hw'
    rw [tupds, List.countP_cons_of_pos (by simp [begins, ← htype, htupd, isUpdate_of_isTupd htupd htable])]
    exact Nat.succ_pos _

/-- The code on a buffer that is walked. -/
theorem replSortTrBuff_walk (fresh : Nat → RegJrecInfo) {w w' : Nat} (hlen : b.length < 2 ^ 31) (hlong : TCOM_SIZE ≤ b.length)
    (hw : u32At b 0 = some w) (hmore : forwptr w ≠ b.length) (htupd : isTupd beyond (jrecType w) = true)
    (hp : u16At b (b.length - TCOM_SIZE + NUM_PARTICIPANTS) = some p) (hw' : u32At b (b.length - TCOM_SIZE) = some w')
    (htype : jrecType w' = JRT_TCOM) (hone : p ≠ 1)
    (hsafe : SafeWalk beyond b p (max st.regJrecInfoArray.length p) (reached beyond b (b.length + 1) 0 b.length 0))
    (htable : jrecType w < jrtUpdate.length) :
    ∃ b' st', replSortTrBuff beyond fresh st b = some (b', st') ∧ b'.length = b.length ∧ (¬ BalancedSeq beyond b → b' = b) := by
  have htcom : TCOM_SIZE = 56 := rfl
  have hstart : (scanStart (arrayFor fresh st.regJrecInfoArray p)).balanced = ((0 : Nat) : Int) := rfl
  have hroom : 0 + tupds beyond (reached beyond b (b.length + 1) 0 b.length 0) ≤ (arrayFor fresh st.regJrecInfoArray p).length := by
    rw [length_arrayFor, Nat.zero_add]
    exact hsafe.regions
  obtain ⟨left, s, hscan, hdone⟩ := scanRecords_reached (Nat.zero_add b.length) (show b.length < b.length + 1 by omega) hstart hsafe.numbers hroom
  have hlong' : ((TCOM_SIZE : Nat) : Int) ≤ b.length := by omega
  have hmore' : ¬ (forwptr w : Int) = b.length := by omega
  by_cases hbad : left ≠ some 0 ∨ s.balanced ≠ 0
  · refine ⟨b, { st with regJrecInfoArray := s.regs }, ?_, rfl, fun _ => rfl⟩
    rw [scanStart, arrayFor] at hscan
    rw [replSortTrBuff, if_pos hlen, hw]
    simp only [Option.bind_eq_bind, Option.bind_some, if_neg hmore', htupd, not_true_eq_false, if_false, if_pos hlong', Int.toNat_natCast, hp, hw',
      htype, ne_eq, if_neg hone, hscan]
    exact if_pos hbad
  · obtain ⟨hzero, -⟩ := not_or.1 hbad
    have d := hdone (not_not.1 hzero)
    generalize reached beyond b (b.length + 1) 0 b.length 0 = rs at d hsafe
    have hcount : tupds beyond rs = tcoms beyond rs := by
      have := d.balanced
      omega
    have hseq : BalancedSeq beyond b := ⟨rs, d.records.imp fun _ _ hno => hno.elim, d.size, hcount⟩
    have hsorted := sorted_updFold (updates beyond rs) (scanStart (arrayFor fresh st.regJrecInfoArray p))
    by_cases horder : InOrder (updates beyond rs)
    · have hpos := tupds_pos d.records (by rw [d.size]; omega) hw htupd htable
      have hidx : 0 < s.regIdx := by
        rw [d.regIdx]
        omega
      have hdone' : s.alreadySorted = true := by
        rw [d.sorted, hsorted]
        exact ⟨rfl, fun r _ => Nat.zero_le _, horder⟩
      refine ⟨b, ⟨s.regs.modify (s.regIdx - 1) fun r => { r with endOffset := s.firstTcomOffset }, st.privateTrBuff⟩, ?_, rfl, fun _ => rfl⟩
      rw [scanStart, arrayFor] at hscan
      rw [replSortTrBuff, if_pos hlen, hw]
      simp only [Option.bind_eq_bind, Option.bind_some, if_neg hmore', htupd, not_true_eq_false, if_false, if_pos hlong', Int.toNat_natCast, hp, hw',
        htype, ne_eq, if_neg hone, hscan]
      rw [if_neg hbad, if_pos hidx, if_pos hdone']
      rfl
    · obtain ⟨qs, ts, hb, hups, hqs⟩ := hsafe.balanced d.records d.size d.walk hcount horder hw htupd
      obtain ⟨-, hparts, hmax⟩ := hsafe.merge d.size hcount horder
      rw [hups] at horder hmax
      have hentries := hsafe.regions
      obtain ⟨sorted, regs, x, hsort, hpoint, hrun⟩ := hb.replSortTrBuff_eq fresh st hlen ⟨hlong, hp, w', hw', htype⟩ hone (by omega)
      have hrecords := (chain_append.1 hb.records).1
      have hlength := length_le_size hrecords
      have hsize := hb.length
      rw [size_append] at hsize
      have hsmall : ∀ r ∈ qs.flatten, r.updateNum < 2 ^ 32 - 1 := fun r hr => by
        obtain ⟨o, ho⟩ := hrecords.updAt (fun x hx => by
          obtain ⟨q, hq, hxq⟩ := List.mem_flatten.1 hx
          exact (hb.regions q hq).updates x hxq) hr
        have := u32At_lt ho
        have := hmax r hr
        omega
      obtain ⟨b', regs', hmerge, hkeep⟩ := mergeRegions_safe (p := p) hpoint (by omega) hsmall (by omega) hlength
      refine ⟨b', ⟨regs', b ++ x⟩, ?_, hkeep, fun hno => absurd hseq hno⟩
      rw [hrun, if_neg (fun hs => horder (hsort.1 hs)), hmerge]
      rfl

/-- A buffer of two regions. -/
def twoRegions : List UInt8 := recBytes [shortRec 15 1, shortRec 16 3, shortRec 15 2, tcomRec 2, tcomRec 2]

theorem reached_twoRegions :
    reached (fun _ => 0) twoRegions 245 0 244 0 = [shortRec 15 1, shortRec 16 3, shortRec 15 2, ⟨(tcomRec 2).bytes, 17, 131072⟩,
      ⟨(tcomRec 2).bytes, 17, 131072⟩] := by
  decide +kernel

end SortBuf

end Gtm
