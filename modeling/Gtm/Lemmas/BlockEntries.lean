import Gtm.Gds.Entries

/-!
# The entries of a block `cert_blk` accepts

Keys are prefix-free, and a block that passes `cert_blk` is a well-formed block with some list of entries.
-/

namespace Gtm

open CommonPrefix LexOrder

/-! ## Keys -/

theorem isKey_cons_cons {a c : UInt8} {rest : List UInt8} : isKey (a :: c :: rest) = true ↔
      (a = keyDelimiter ∧ c = keyDelimiter ∧ rest = []) ∨ (¬(a = keyDelimiter ∧ c = keyDelimiter) ∧ isKey (c :: rest) = true) := by
  rw [isKey]
  split
  · next h => simp [h.1, h.2]
  · next h =>
    constructor
    · exact fun hk => .inr ⟨h, hk⟩
    · rintro (⟨ha, hc, -⟩ | ⟨-, hk⟩)
      · exact absurd ⟨ha, hc⟩ h
      · exact hk

variable {k : List UInt8} {n off fuel rp : Nat} {b : GdsBlk} {st st' : CertState} {env : CertEnv}

theorem isKey_ne_nil (hk : isKey k = true) : k ≠ [] := by
  rintro rfl
  simp [isKey] at hk

theorem isKey_length (hk : isKey k = true) : 2 ≤ k.length := by
  match k, hk with
  | _ :: _ :: _, _ => simp

/-- No key is a proper beginning of another. -/
theorem isKey_prefix_eq {u v : List UInt8} (hu : isKey u = true) (hv : isKey v = true) (h : u <+: v) : u = v := by
  induction u generalizing v with
  | nil => simp [isKey] at hu
  | cons a u ih =>
    obtain ⟨t, rfl⟩ := h
    cases u with
    | nil => simp [isKey] at hu
    | cons c u =>
      simp only [List.cons_append] at hv ⊢
      rcases isKey_cons_cons.1 hu with ⟨rfl, rfl, rfl⟩ | ⟨hne, hu'⟩
      · rcases isKey_cons_cons.1 hv with ⟨-, -, ht⟩ | ⟨hne, -⟩
        · simp [ht]
        · exact absurd ⟨rfl, rfl⟩ hne
      · rcases isKey_cons_cons.1 hv with ⟨ha, hc, -⟩ | ⟨-, hv'⟩
        · exact absurd ⟨ha, hc⟩ hne
        · rw [ih hu' hv' ⟨t, rfl⟩]

theorem takeKey_append (hk : isKey k = true) (v : List UInt8) : takeKey (k ++ v) = k := by
  induction k with
  | nil => simp [isKey] at hk
  | cons a k ih =>
    cases k with
    | nil => simp [isKey] at hk
    | cons c k =>
      simp only [List.cons_append, takeKey]
      rcases isKey_cons_cons.1 hk with ⟨rfl, rfl, rfl⟩ | ⟨hne, hk'⟩
      · simp
      · rw [if_neg hne]
        exact congrArg (a :: ·) (ih hk')

/-- A key ends with two delimiters. -/
theorem isKey_ends (hk : isKey k = true) : ∃ u, k = u ++ [keyDelimiter, keyDelimiter] := by
  induction k with
  | nil => simp [isKey] at hk
  | cons a k ih =>
    cases k with
    | nil => simp [isKey] at hk
    | cons c k =>
      rcases isKey_cons_cons.1 hk with ⟨rfl, rfl, rfl⟩ | ⟨-, hk'⟩
      · exact ⟨[], rfl⟩
      · obtain ⟨u, hu⟩ := ih hk'
        exact ⟨a :: u, by rw [hu]; rfl⟩

/-- Bytes followed by a key are a key, unless two delimiters come together before its end. -/
theorem isKey_append {s t : List UInt8} (hs : ∀ p q, s ≠ p ++ keyDelimiter :: keyDelimiter :: q)
    (hz : s.getLast? = some keyDelimiter → isKey (keyDelimiter :: t) = true)
    (hn : s.getLast? ≠ some keyDelimiter → isKey t = true) : isKey (s ++ t) = true := by
  induction s with
  | nil => exact hn (by simp)
  | cons a s ih =>
    cases s with
    | nil =>
      by_cases ha : a = keyDelimiter
      · subst ha
        exact hz rfl
      · have ht := hn (by simpa using ha)
        cases t with
        | nil => simp [isKey] at ht
        | cons c t => exact isKey_cons_cons.2 (.inr ⟨fun h => ha h.1, ht⟩)
    | cons c s =>
      have hac : ¬(a = keyDelimiter ∧ c = keyDelimiter) := fun h => hs [] s (by rw [h.1, h.2]; rfl)
      refine isKey_cons_cons.2 (.inr ⟨hac, ih ?_ ?_ ?_⟩)
      · exact fun p q h => hs (a :: p) q (by rw [h]; rfl)
      · exact fun h => hz (by simpa using h)
      · exact fun h => hn (by simpa using h)

/-- Two delimiters together end a key. -/
theorem isKey_two_delims {p q : List UInt8} (hk : isKey (p ++ keyDelimiter :: keyDelimiter :: q) = true) : q = [] := by
  induction p with
  | nil =>
    rcases isKey_cons_cons.1 hk with ⟨-, -, hq⟩ | ⟨hne, -⟩
    · exact hq
    · exact absurd ⟨rfl, rfl⟩ hne
  | cons a p ih =>
    cases p with
    | nil =>
      rcases isKey_cons_cons.1 hk with ⟨-, -, hq⟩ | ⟨-, hk'⟩
      · exact absurd hq (by simp)
      · exact ih hk'
    | cons c p =>
      rcases isKey_cons_cons.1 hk with ⟨-, -, hq⟩ | ⟨-, hk'⟩
      · exact absurd hq (by simp)
      · exact ih hk'

theorem isKey_take (hk : isKey k = true) (hn : n < k.length) (p q : List UInt8) : k.take n ≠ p ++ keyDelimiter :: keyDelimiter :: q := by
  intro h
  have hsplit : k = p ++ keyDelimiter :: keyDelimiter :: (q ++ k.drop n) := by
    conv_lhs => rw [← List.take_append_drop n k, h]
    simp
  rw [hsplit] at hk
  have hnil := (List.append_eq_nil_iff.1 (isKey_two_delims hk)).2
  rw [List.drop_eq_nil_iff] at hnil
  omega

/-! ## Bytes of a buffer -/

@[simp] theorem GdsBlk.length_bytes (b : GdsBlk) (off len : Nat) : (b.bytes off len).length = len := by simp [GdsBlk.bytes]

theorem GdsBlk.bytes_add (b : GdsBlk) (off m n : Nat) : b.bytes off (m + n) = b.bytes off m ++ b.bytes (off + m) n := by
  simp [GdsBlk.bytes, List.range_add, Nat.add_assoc, Function.comp_def]

theorem GdsBlk.bytes_succ (b : GdsBlk) (off n : Nat) : b.bytes off (n + 1) = b.byte off :: b.bytes (off + 1) n := by
  rw [Nat.add_comm n 1, bytes_add]
  rfl

theorem GdsBlk.getElem_bytes (b : GdsBlk) (off len i : Nat) (h : i < (b.bytes off len).length) :
    (b.bytes off len)[i] = b.byte (off + i) := by simp [GdsBlk.bytes]

theorem GdsBlk.hasBytes_bytes (b : GdsBlk) (off len : Nat) : b.HasBytes off (b.bytes off len) := by
  simp [GdsBlk.HasBytes]

theorem GdsBlk.hasBytes_append {u v : List UInt8} : b.HasBytes off (u ++ v) ↔ b.HasBytes off u ∧ b.HasBytes (off + u.length) v := by
  rw [HasBytes, List.length_append, bytes_add]
  constructor
  · exact fun h => List.append_inj h (by simp)
  · rintro ⟨hu, hv⟩
    rw [show b.bytes off u.length = u from hu, show b.bytes (off + u.length) v.length = v from hv]

theorem GdsBlk.hasBytes_cons {a : UInt8} {l : List UInt8} : b.HasBytes off (a :: l) ↔ b.byte off = a ∧ b.HasBytes (off + 1) l := by
  rw [HasBytes, List.length_cons, bytes_succ, List.cons.injEq]
  rfl

theorem GdsBlk.HasBytes.byte {l : List UInt8} (h : b.HasBytes off l) {i : Nat} (hi : i < l.length) : b.byte (off + i) = l[i] := by
  rw [← b.getElem_bytes off l.length i (by simpa using hi)]
  simp only [show b.bytes off l.length = l from h]

/-! ## What `cert_blk` accepts -/

/-- The scan ends behind the first two delimiters. -/
theorem scanKey_key {rTop keyBase ptr numSubs minCmpc ptr' n' m' : Nat} {prevDelim : Bool}
    (h : scanKey b rTop keyBase fuel ptr prevDelim numSubs minCmpc = some (ptr', n', m')) (hptr : ptr < rTop) : ptr < ptr' ∧ ptr' ≤ rTop ∧
      isKey ((if prevDelim then [keyDelimiter] else []) ++ b.bytes ptr (ptr' - ptr)) = true := by
  induction fuel generalizing ptr prevDelim numSubs minCmpc with
  | zero => simp [scanKey] at h
  | succ fuel ih =>
    have hstep : ∀ q, ptr + 1 < q → b.bytes ptr (q - ptr) = b.byte ptr :: b.bytes (ptr + 1) (q - (ptr + 1)) := by
      intro q hq
      rw [show q - ptr = (q - (ptr + 1)) + 1 by omega, b.bytes_succ]
    rw [scanKey] at h
    split at h
    · next hz =>
      simp only at h
      split at h
      · next hp =>
        -- the second delimiter
        obtain ⟨rfl, -, -⟩ := h
        refine ⟨by omega, by omega, ?_⟩
        simp [hp, GdsBlk.bytes, hz, isKey]
      · next hp =>
        split at h
        · cases h
        · next htop =>
          obtain ⟨hlt, hle, hk⟩ := ih h (by omega)
          refine ⟨by omega, hle, ?_⟩
          rw [hstep ptr' hlt, hz]
          simpa [hp] using hk
    · next hz =>
      split at h
      · cases h
      · next htop =>
        obtain ⟨hlt, hle, hk⟩ := ih h (by omega)
        refine ⟨by omega, hle, ?_⟩
        rw [hstep ptr' hlt]
        have hk' : isKey (b.byte ptr :: b.bytes (ptr + 1) (ptr' - (ptr + 1))) = true := by
          refine isKey_append (s := [b.byte ptr]) ?_ (fun hl => absurd (by simpa using hl) hz) (fun _ => hk)
          intro p q hpq
          have hlen := congrArg List.length hpq
          simp only [List.length_append, List.length_cons, List.length_nil] at hlen
          omega
        cases prevDelim with
        | false => simpa using hk'
        | true =>
          refine isKey_cons_cons.2 (.inr ⟨fun hc => hz hc.2, ?_⟩)
          simpa using hk'

/-- The variables of the loop of `cert_blk` at a record: the key before it, if there is one. -/
structure CertAt (st : CertState) : Prop where
  key : st.firstKey = false → isKey st.priorExpkey = true
  first : st.firstKey = true → st.priorExpkey = []

/-- A record with a key that `cert_blk` accepts holds an entry behind the key before it. -/
theorem certKey_entry {rTop ptr : Nat} (hst : CertAt st) (hfirst : st.firstKey = true → b.evalCmpc rp = 0) (hrp : rp + recHdrSize < rTop)
    (h : certKey b st rp rTop = some (st', ptr)) :
    ∃ e : Entry, e.key = some st'.priorExpkey ∧ isKey st'.priorExpkey = true ∧ st.priorExpkey < st'.priorExpkey ∧
      b.evalCmpc rp = e.cmpc st.priorExpkey ∧ e.data st.priorExpkey = b.bytes (rp + recHdrSize) (rTop - (rp + recHdrSize)) ∧
      (b.levl ≠ 0 → e.val.length = sizeofBlkId b.longBlkId) := by
  rw [certKey] at h
  simp only at h
  split at h
  · cases h
  · next hcmpc =>
    split at h
    · cases h
    · next ptr₀ numDelims minCmpc hscan =>
      split_ifs at h with h1 h2 h3 h4 h5
      simp only [Option.some.injEq, Prod.mk.injEq] at h
      obtain ⟨rfl, rfl⟩ := h
      obtain ⟨hlt, hle, hkey⟩ := scanKey_key hscan hrp
      set c := b.evalCmpc rp with hc
      set keyBase := rp + recHdrSize with hkb
      obtain ⟨n, hn⟩ : ∃ n, ptr₀ - keyBase = n + 1 := ⟨ptr₀ - keyBase - 1, by omega⟩
      rw [hn] at hkey ⊢
      set tail := b.bytes keyBase (n + 1) with htail
      have htail' : tail = b.byte keyBase :: b.bytes (keyBase + 1) n := b.bytes_succ keyBase n
      set full := st.priorExpkey.take c ++ tail with hfull
      have hclt : st.firstKey = false → c < st.priorExpkey.length := by
        intro hf
        have hlenp := isKey_length (hst.key hf)
        by_cases hc0 : c = 0
        · omega
        · by_contra hge
          exact hcmpc ⟨hc0, by omega⟩
      have htake : (st.priorExpkey.take c).length = c := by
        cases hf : st.firstKey with
        | true =>
          have hc0 : c = 0 := hfirst hf
          simp [hc0]
        | false => simpa using (hclt hf).le
      -- the key before the record reaches to the compression count, and the record is behind it there
      have horder : lcp st.priorExpkey full = c ∧ st.priorExpkey < full := by
        cases hf : st.firstKey with
        | true =>
          have hc0 : c = 0 := hfirst hf
          rw [hfull, htail', hst.first hf, hc0]
          simp
        | false =>
          have hlt := hclt hf
          have hgt : st.priorExpkey[c] < b.byte keyBase := by
            rw [← not_le]
            intro hle
            exact h5 ⟨hf, by simpa [hlt] using hle⟩
          have hsplit : st.priorExpkey = st.priorExpkey.take c ++ st.priorExpkey[c] :: st.priorExpkey.drop (c + 1) := by
            rw [List.getElem_cons_drop, List.take_append_drop]
          constructor
          · conv_lhs => rw [hsplit]
            rw [hfull, htail', lcp_of_split _ _ _ hgt.ne, htake]
          · conv_lhs => rw [hsplit]
            rw [hfull, htail']
            exact lt_of_split _ _ _ hgt
      have hisKey : isKey full = true := by
        refine isKey_append ?_ ?_ ?_
        · cases hf : st.firstKey with
          | true => simp [hst.first hf]
          | false => exact isKey_take (hst.key hf) (hclt hf)
        · intro hz
          have hc0 : c ≠ 0 := by
            intro hc0
            simp [hc0] at hz
          simpa [hz, hc0] using hkey
        · intro hz
          simpa [hz] using hkey
      refine ⟨⟨some full, b.bytes ptr₀ (rTop - ptr₀)⟩, rfl, hisKey, horder.2, ?_, ?_, ?_⟩
      · exact horder.1.symm
      · have hdrop : full.drop c = tail := by
          rw [List.drop_append_of_le_length htake.ge, List.drop_eq_nil_of_le htake.le, List.nil_append]
        rw [Entry.data, Entry.cmpc, Entry.keyBytes, Option.getD_some, horder.1, hdrop, htail,
          show ptr₀ = keyBase + (n + 1) by omega, ← b.bytes_add]
        congr 1
        omega
      · intro hlevl
        simp only [GdsBlk.length_bytes]
        omega

theorem certChild_prior {p : Nat} (h : certChild env b st p = some st') : st'.priorExpkey = st.priorExpkey ∧ st'.firstKey = false := by
  simp only [certChild] at h
  split_ifs at h <;> (cases h; exact ⟨rfl, rfl⟩)

/-- What is behind the header of an accepted record. -/
theorem certRec_entry (hst : CertAt st) (h : certRec env b st rp = some st') :
    recHdrSize < b.rsiz rp ∧ rp + b.rsiz rp ≤ b.bsiz ∧ st'.firstKey = false ∧
    ∃ e : Entry, b.rsiz rp = e.size st.priorExpkey ∧ b.evalCmpc rp = e.cmpc st.priorExpkey ∧
      b.HasBytes (rp + recHdrSize) (e.data st.priorExpkey) ∧
      ((e.key = none ∧ b.levl ≠ 0 ∧ rp + b.rsiz rp = b.bsiz ∧ e.val.length = sizeofBlkId b.longBlkId) ∨
        (e.key = some st'.priorExpkey ∧ isKey st'.priorExpkey = true ∧ st.priorExpkey < st'.priorExpkey ∧
          (b.levl ≠ 0 → e.val.length = sizeofBlkId b.longBlkId) ∧ (b.levl ≠ 0 → rp + b.rsiz rp ≠ b.bsiz))) := by
  simp only [certRec] at h
  split_ifs at h with h1 h2 h3 h4 hstar h6 h7
  · -- the star-key record
    obtain ⟨-, hfirst⟩ := certChild_prior h
    have hsize : b.rsiz rp - recHdrSize = sizeofBlkId b.longBlkId := by
      rw [not_not.1 h6, bstarRecSize]
      omega
    refine ⟨by omega, by omega, hfirst, ⟨none, b.bytes (rp + recHdrSize) (b.rsiz rp - recHdrSize)⟩, ?_, ?_, ?_, .inl ?_⟩
    · simp only [Entry.size, Entry.data, Entry.keyBytes, Option.getD_none, List.drop_nil, List.nil_append, GdsBlk.length_bytes]
      omega
    · simpa [Entry.cmpc, Entry.keyBytes] using h7
    · simpa [Entry.data, Entry.keyBytes] using b.hasBytes_bytes _ _
    · exact ⟨rfl, hstar.2, hstar.1, by simpa using hsize⟩
  · split at h
    · cases h
    · next st₁ ptr hkey =>
      obtain ⟨hprior, hfirst⟩ := certChild_prior h
      obtain ⟨e, hek, hik, hlt, hcmpc, hdata, hval⟩ := certKey_entry hst (fun hf => by
        by_contra hne
        exact h3 ⟨hf, hne⟩) (by omega) hkey
      refine ⟨by omega, by omega, hfirst, e, ?_, hcmpc, ?_, .inr ?_⟩
      · rw [Entry.size, hdata, GdsBlk.length_bytes]
        omega
      · rw [hdata]
        exact b.hasBytes_bytes _ _
      · rw [hprior]
        exact ⟨hek, hik, hlt, hval, fun hlevl heq => hstar ⟨heq, hlevl⟩⟩

/-- The records from an accepted offset on are the entries of a well-formed block. -/
theorem certLoop_entries (hst : CertAt st) (hrp : rp ≤ b.bsiz) (hindex : b.levl ≠ 0 → rp < b.bsiz) (h : certLoop env b fuel st rp = true) :
    ∃ es, Laid b rp st.priorExpkey es ∧ Contents (decide (b.levl = 0)) (sizeofBlkId b.longBlkId) st.priorExpkey es := by
  have hdone : b.bsiz ≤ rp →
      ∃ es, Laid b rp st.priorExpkey es ∧ Contents (decide (b.levl = 0)) (sizeofBlkId b.longBlkId) st.priorExpkey es := by
    intro hle
    refine ⟨[], le_antisymm hrp hle, ?_⟩
    by_contra hlevl
    have := hindex (by simpa [Contents] using hlevl)
    omega
  induction fuel generalizing st rp with
  | zero => exact hdone (by simpa [certLoop] using h)
  | succ fuel ih =>
    rw [certLoop] at h
    split at h
    · next hle => exact hdone hle
    · split at h
      · cases h
      · next st' hrec =>
        obtain ⟨-, htop, hfirst, e, hrsiz, hcmpc, hbytes, hstar | ⟨hek, hik, hlt, hval, hlast⟩⟩ := certRec_entry hst hrec
        · obtain ⟨hek, hlevl, hend, hval⟩ := hstar
          refine ⟨[e], ⟨hrsiz, hcmpc, hbytes, by rw [← hrsiz]; exact htop, by rw [← hrsiz]; exact hend⟩, ?_⟩
          simp [Contents, hek, hlevl, hval]
        · have hst' : CertAt st' := ⟨fun _ => hik, fun hf => absurd hf (by simp [hfirst])⟩
          have hindex' : b.levl ≠ 0 → rp + b.rsiz rp < b.bsiz := fun hlevl => lt_of_le_of_ne htop (hlast hlevl)
          obtain ⟨es, hlaid, hcont⟩ := ih hst' htop hindex' h (by
            intro hle
            refine ⟨[], le_antisymm htop hle, ?_⟩
            by_contra hlevl
            have := hindex' (by simpa [Contents] using hlevl)
            omega)
          refine ⟨e :: es, ⟨hrsiz, hcmpc, hbytes, by rw [← hrsiz]; exact htop, ?_⟩, ?_⟩
          · rw [← hrsiz, Entry.keyBytes, hek]
            exact hlaid
          · simp only [Contents, hek]
            exact ⟨hik, hlt, fun hl => hval (by simpa using hl), hcont⟩

/-- The first key of a leaf starts with the first character of a name. -/
theorem certLoop_first (h : certLoop env b fuel st rp = true) (hfirst : st.firstKey = true) (hlevl : b.levl = 0) (hrp : rp < b.bsiz) :
    valfirstcharWithTrig (b.byte (rp + recHdrSize)) = true := by
  cases fuel with
  | zero =>
    simp only [certLoop, decide_eq_true_eq] at h
    omega
  | succ fuel =>
    rw [certLoop, if_neg (by omega)] at h
    split at h
    · cases h
    · next st' hrec =>
      simp only [certRec] at hrec
      split_ifs at hrec with _ _ _ h4
      all_goals
        by_contra hch
        exact h4 ⟨hfirst, hlevl, by simpa using hch⟩

theorem Contents.prior_lt {level0 : Bool} {prior : List UInt8} {e : Entry} {es : List Entry}
    (h : Contents level0 n prior es) (he : e ∈ es) (hk : e.key = some k) : prior < k := by
  induction es generalizing prior with
  | nil => simp at he
  | cons e' es ih =>
    cases hk' : e'.key with
    | none =>
      simp only [Contents, hk'] at h
      obtain ⟨-, rfl, -⟩ := h
      obtain rfl : e = e' := by simpa using he
      simp [hk] at hk'
    | some k' =>
      simp only [Contents, hk'] at h
      rcases List.mem_cons.1 he with rfl | he
      · rw [hk] at hk'
        cases hk'
        exact h.2.1
      · exact h.2.1.trans (ih h.2.2.2 he)

/-- No key of a leaf starts with a delimiter. -/
theorem leaf_start {es : List Entry} (hl : Laid b blkHdrSize [] es) (hc : Contents true n [] es)
    (hfirst : blkHdrSize < b.bsiz → valfirstcharWithTrig (b.byte (blkHdrSize + recHdrSize)) = true) :
    ∀ e ∈ es, e.keyBytes.head? ≠ some keyDelimiter := by
  cases es with
  | nil => simp
  | cons e es =>
    cases hk : e.key with
    | none => simp [Contents, hk] at hc
    | some k =>
      simp only [Contents, hk] at hc
      obtain ⟨hik, -, -, hrest⟩ := hc
      obtain ⟨a, k, rfl⟩ := List.exists_cons_of_ne_nil (isKey_ne_nil hik)
      obtain ⟨-, -, hbytes, hle, -⟩ := hl
      have hdata : e.data [] = a :: (k ++ e.val) := by simp [Entry.data, Entry.cmpc, Entry.keyBytes, hk]
      have hbyte : b.byte (blkHdrSize + recHdrSize) = a := by
        rw [hdata] at hbytes
        exact (GdsBlk.hasBytes_cons.1 hbytes).1
      have ha : a ≠ keyDelimiter := by
        have hval := hfirst (by simp only [Entry.size, recHdrSize] at hle; omega)
        rw [hbyte] at hval
        rintro rfl
        exact absurd hval (by decide)
      intro e' he'
      rcases List.mem_cons.1 he' with rfl | he'
      · simpa [Entry.keyBytes, hk] using ha
      · cases hk' : e'.key with
        | none => simp [Entry.keyBytes, hk']
        | some k' =>
          have hlt := hrest.prior_lt he' hk'
          simp only [Entry.keyBytes, hk', Option.getD_some]
          intro hhead
          cases k' with
          | nil => simp at hhead
          | cons c k' =>
            obtain rfl : c = keyDelimiter := by simpa using hhead
            rcases List.cons_lt_cons_iff.1 hlt with h | ⟨rfl, -⟩
            · exact absurd h (by simp [keyDelimiter, UInt8.lt_iff_toNat_lt])
            · exact ha rfl

/-- `cert_blk` accepts only well-formed blocks, and none larger than the block size. -/
theorem certBlk_wf (h : certBlk env b = true) : b.bsiz ≤ env.blkSize ∧ ∃ es, WfBlk b es := by
  have hst : ∀ d g, CertAt ⟨true, 0, [], d, g, 0, none⟩ := fun d g => ⟨fun hf => absurd hf (by simp), fun _ => rfl⟩
  simp only [certBlk] at h
  split_ifs at h with _ _ hlevl hmin hmax hmin hmax
  · obtain ⟨es, hlaid, hcont⟩ := certLoop_entries (hst _ _) (by omega) (fun hne => absurd hlevl hne) h
    refine ⟨not_lt.1 hmax, es, hlaid, hcont, fun _ => ?_⟩
    rw [hlevl] at hcont
    exact leaf_start hlaid hcont (certLoop_first h rfl hlevl)
  · have hindex : blkHdrSize < b.bsiz := by
      rw [bstarRecSize, recHdrSize] at hmin
      omega
    obtain ⟨es, hlaid, hcont⟩ := certLoop_entries (hst _ _) hindex.le (fun _ => hindex) h
    exact ⟨not_lt.1 hmax, es, hlaid, hcont, fun h0 => absurd h0 hlevl⟩

end Gtm
