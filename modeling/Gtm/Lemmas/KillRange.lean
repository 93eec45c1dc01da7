import Gtm.Gds.KillBlk
import Gtm.Lemmas.BlkTail

/-!
# Blocks as strings of bytes

The records of a block, read as one string, split where the entries do. What is rebuilt from pieces of the string is a block again.
-/

namespace Gtm

open CommonPrefix LexOrder

/-! ## Encoded entries -/

/-- The size in a record header. -/
def hdrRsiz : List UInt8 → Nat
  | a :: c :: _ => a.toNat + 256 * c.toNat
  | _ => 0

/-- The compression count in a record header. -/
def hdrCmpc : List UInt8 → Nat
  | _ :: _ :: a :: c :: _ => if a.toNat < 253 then a.toNat else (253 + (a.toNat - 253) * 256 + c.toNat) % 1024
  | _ => 0

/-- The string encodes the entries behind the key `prior`. -/
def Enc : List UInt8 → List UInt8 → List Entry → Prop
  | l, _, [] => l = []
  | l, prior, e :: es =>
    ∃ h rest, h.length = recHdrSize ∧ l = h ++ e.data prior ++ rest ∧ hdrRsiz h = e.size prior ∧ hdrCmpc h = e.cmpc prior ∧
      Enc rest e.keyBytes es

theorem hdr_bytes (b : GdsBlk) (off : Nat) :
    hdrRsiz (b.bytes off recHdrSize) = b.rsiz off ∧ hdrCmpc (b.bytes off recHdrSize) = b.evalCmpc off := by
  constructor <;> rfl

variable {es : List Entry} {prior : List UInt8}

theorem Enc.length {l : List UInt8} (h : Enc l prior es) (off : Nat) : endOf off prior es = off + l.length := by
  induction es generalizing l prior off with
  | nil =>
    obtain rfl : l = [] := h
    simp [endOf]
  | cons e es ih =>
    obtain ⟨hd, rest, hlen, rfl, -, -, hrest⟩ := h
    rw [endOf, ih hrest, List.length_append, List.length_append, Entry.size]
    omega

/-- A block holds entries exactly if its bytes encode them. -/
theorem laid_iff_enc {b : GdsBlk} {off : Nat} : Laid b off prior es ↔ off ≤ b.bsiz ∧ Enc (b.bytes off (b.bsiz - off)) prior es := by
  induction es generalizing off prior with
  | nil =>
    simp only [Laid, Enc]
    constructor
    · rintro rfl
      simp [GdsBlk.bytes]
    · rintro ⟨hle, hnil⟩
      have := congrArg List.length hnil
      simp only [GdsBlk.length_bytes, List.length_nil] at this
      omega
  | cons e es ih =>
    have hsize : e.size prior = recHdrSize + (e.data prior).length := rfl
    constructor
    · intro h
      obtain ⟨hrsiz, hcmpc, hbytes, hle, hrest⟩ := h
      obtain ⟨-, henc⟩ := ih.1 hrest
      refine ⟨by omega, b.bytes off recHdrSize, _, by simp, ?_, (hdr_bytes b off).1.trans hrsiz, (hdr_bytes b off).2.trans hcmpc, henc⟩
      rw [show b.bsiz - off = recHdrSize + ((e.data prior).length + (b.bsiz - (off + e.size prior))) by omega, b.bytes_add, b.bytes_add,
        show b.bytes (off + recHdrSize) (e.data prior).length = e.data prior from hbytes, List.append_assoc, hsize, Nat.add_assoc off]
    · rintro ⟨hle, hd, rest, hlen, heq, hrsiz, hcmpc, henc⟩
      have htotal := congrArg List.length heq
      simp only [GdsBlk.length_bytes, List.length_append, hlen] at htotal
      rw [show b.bsiz - off = recHdrSize + ((e.data prior).length + rest.length) by omega, b.bytes_add, b.bytes_add,
        List.append_assoc] at heq
      obtain ⟨h1, h2⟩ := List.append_inj heq (by simp [hlen])
      obtain ⟨h2, h3⟩ := List.append_inj h2 (by simp)
      refine ⟨?_, ?_, h2, by omega, ih.2 ⟨by omega, ?_⟩⟩
      · rw [← (hdr_bytes b off).1, h1, hrsiz]
      · rw [← (hdr_bytes b off).2, h1, hcmpc]
      · rw [show b.bsiz - (off + e.size prior) = rest.length by omega, hsize, ← Nat.add_assoc, h3]
        exact henc

/-- An encoding splits where the entries do. -/
theorem enc_append {l : List UInt8} {es' : List Entry} :
    Enc l prior (es ++ es') ↔ ∃ l₁ l₂, l = l₁ ++ l₂ ∧ Enc l₁ prior es ∧ Enc l₂ (lastKey prior es) es' := by
  induction es generalizing l prior with
  | nil =>
    constructor
    · exact fun h => ⟨[], l, rfl, rfl, h⟩
    · rintro ⟨l₁, l₂, rfl, rfl, h⟩
      exact h
  | cons e es ih =>
    constructor
    · rintro ⟨hd, rest, hlen, rfl, hrsiz, hcmpc, hrest⟩
      obtain ⟨l₁, l₂, rfl, h1, h2⟩ := ih.1 hrest
      exact ⟨hd ++ e.data prior ++ l₁, l₂, by simp, ⟨hd, l₁, hlen, rfl, hrsiz, hcmpc, h1⟩, h2⟩
    · rintro ⟨-, l₂, rfl, ⟨hd, rest, hlen, rfl, hrsiz, hcmpc, h1⟩, h2⟩
      exact ⟨hd, rest ++ l₂, hlen, by simp, hrsiz, hcmpc, ih.2 ⟨rest, l₂, rfl, h1, h2⟩⟩

/-! ## New record headers -/

theorem hdrCmpc_le (l : List UInt8) : hdrCmpc l ≤ 1020 := by
  match l with
  | [] | [_] | [_, _] | [_, _, _] => simp [hdrCmpc]
  | _ :: _ :: a :: c :: _ =>
    have ha := a.toNat_lt
    have hc := c.toNat_lt
    simp only [hdrCmpc]
    split <;> omega

theorem recHdr_spec (env : KillEnv) {rsiz cmpc : Nat} (hr : rsiz < 65536) (hc : cmpc ≤ 1020) :
    (recHdr env rsiz cmpc).length = recHdrSize ∧ hdrRsiz (recHdr env rsiz cmpc) = rsiz ∧ hdrCmpc (recHdr env rsiz cmpc) = cmpc := by
  rw [recHdr, setCmpc]
  split
  · next h =>
    refine ⟨rfl, ?_, ?_⟩
    · simp only [ushortBytes, List.cons_append, hdrRsiz, UInt8.toNat_ofNat']
      omega
    · simp only [ushortBytes, List.cons_append, List.nil_append, hdrCmpc, UInt8.toNat_ofNat']
      rw [if_pos (by omega)]
      omega
  · next h =>
    refine ⟨rfl, ?_, ?_⟩
    · simp only [ushortBytes, List.cons_append, hdrRsiz, UInt8.toNat_ofNat']
      omega
    · simp only [ushortBytes, List.cons_append, List.nil_append, hdrCmpc, UInt8.toNat_ofNat']
      rw [if_neg (by omega)]
      omega

/-! ## Built blocks -/

theorem segBytes_length (b : GdsBlk) (segs : List Seg) : blkSegCnt segs = blkHdrSize + (segBytes b segs).length := by
  have h : (segs.map Seg.len).sum = (segBytes b segs).length := by
    induction segs with
    | nil => rfl
    | cons s segs ih =>
      rw [List.map_cons, List.sum_cons, ih, segBytes, segBytes, List.flatMap_cons]
      cases s <;> simp [Seg.len, Seg.bytes]
  rw [blkSegCnt, h]

/-- The records of a built block are the bytes of its segments. -/
theorem buildBlk_bytes (b : GdsBlk) (levl : Nat) (segs : List Seg) :
    (buildBlk b levl segs).bytes blkHdrSize ((buildBlk b levl segs).bsiz - blkHdrSize) = segBytes b segs := by
  have hsz : (buildBlk b levl segs).bsiz - blkHdrSize = (segBytes b segs).length := by
    change blkSegCnt segs - blkHdrSize = _
    rw [segBytes_length b]
    omega
  rw [hsz]
  refine List.ext_getElem (by simp) fun i h1 h2 => ?_
  rw [GdsBlk.getElem_bytes]
  simp [buildBlk, h2]

theorem buildBlk_laid {b : GdsBlk} {levl : Nat} {segs : List Seg} (h : Enc (segBytes b segs) [] es) :
    Laid (buildBlk b levl segs) blkHdrSize [] es := by
  refine laid_iff_enc.2 ⟨?_, ?_⟩
  · exact Nat.le_add_right _ _
  · rw [buildBlk_bytes]
    exact h

end Gtm

/-!
## The range a kill deletes

The two searches split the entries of a block into those before the left end, those of the range and those behind. What a search
says about how far its key agrees with its neighbours is all `gvcst_kill_blk` has to find how far the record behind the range agrees
with that before it: no key of the range agrees with one behind it further than with the left end.
-/

namespace Gtm

open CommonPrefix LexOrder

/-! ## Entries in order -/

theorem endOf_append (off : Nat) (prior : List UInt8) (es es' : List Entry) :
    endOf off prior (es ++ es') = endOf (endOf off prior es) (lastKey prior es) es' := by
  induction es generalizing off prior with
  | nil => rfl
  | cons e es ih => exact ih _ _

theorem lastKey_append (prior : List UInt8) (es es' : List Entry) : lastKey prior (es ++ es') = lastKey (lastKey prior es) es' := by
  induction es generalizing prior with
  | nil => rfl
  | cons e es ih => exact ih _

theorem endOf_shift (off n : Nat) (prior : List UInt8) (es : List Entry) : endOf (off + n) prior es = endOf off prior es + n := by
  induction es generalizing off prior with
  | nil => rfl
  | cons e es ih =>
    rw [endOf, endOf, ← ih]
    congr 1
    omega

variable {es : List Entry} {b : GdsBlk} {prior key alt d t : List UInt8} {e : Entry} {level0 : Bool} {n : Nat}

theorem endOf_lt_of_ne_nil (off : Nat) (prior : List UInt8) (hes : es ≠ []) : off < endOf off prior es := by
  cases es with
  | nil => exact absurd rfl hes
  | cons e es =>
    have hge := endOf_ge (off + e.size prior) e.keyBytes es
    have hsize := e.recHdrSize_le_size prior
    rw [recHdrSize] at hsize
    rw [endOf]
    omega

theorem Laid.end_eq {off : Nat} (h : Laid b off prior es) : endOf off prior es = b.bsiz := by
  induction es generalizing off prior with
  | nil => exact h
  | cons e es ih => exact ih h.2.2.2.2

/-- In a block only the last entry has no key. -/
theorem Contents.key_of_append {pre post : List Entry} (hpost : post ≠ [])
    (h : Contents level0 n prior (pre ++ post)) (he : e ∈ pre) : ∃ k, e.key = some k := by
  induction pre generalizing prior with
  | nil => simp at he
  | cons e' pre ih =>
    cases hk : e'.key with
    | none =>
      simp only [List.cons_append, Contents, hk] at h
      exact absurd h.2.1 (by simp [hpost])
    | some k =>
      simp only [List.cons_append, Contents, hk] at h
      rcases List.mem_cons.1 he with rfl | he
      · exact ⟨k, hk⟩
      · exact ih h.2.2.2 he

/-- An index block ends with a star entry. -/
theorem Contents.star (h : Contents level0 n prior es) (hlevel : level0 = false) : ∃ e ∈ es, e.key = none := by
  induction es generalizing prior with
  | nil => simp [Contents, hlevel] at h
  | cons e es ih =>
    cases hk : e.key with
    | none => exact ⟨e, by simp, hk⟩
    | some k =>
      simp only [Contents, hk] at h
      obtain ⟨x, hx, hxk⟩ := ih h.2.2.2
      exact ⟨x, List.mem_cons_of_mem _ hx, hxk⟩

/-- Keys before the last of some entries are not behind it. -/
theorem Contents.le_lastKey {pre post : List Entry} (hpost : post ≠ [])
    (h : Contents level0 n prior (pre ++ post)) : prior ≤ lastKey prior pre := by
  induction pre generalizing prior with
  | nil => exact le_rfl
  | cons e pre ih =>
    obtain ⟨k, hk⟩ := h.key_of_append hpost (e := e) (by simp)
    simp only [List.cons_append, Contents, hk] at h
    have hkb : e.keyBytes = k := by simp [Entry.keyBytes, hk]
    rw [lastKey, hkb]
    exact h.2.1.le.trans (ih h.2.2.2)

/-- The key of the last entry is that of an entry. -/
theorem lastKey_mem (prior : List UInt8) (hes : es ≠ []) : ∃ e ∈ es, e.keyBytes = lastKey prior es := by
  induction es generalizing prior with
  | nil => exact absurd rfl hes
  | cons e es ih =>
    cases es with
    | nil => exact ⟨e, by simp, rfl⟩
    | cons e' es =>
      obtain ⟨x, hx, heq⟩ := ih e.keyBytes (by simp)
      exact ⟨x, List.mem_cons_of_mem _ hx, heq⟩

/-! ## What a search says -/

/-- The offset of the last of the first entries of a block, zero if there are none. -/
def lastOff (es : List Entry) : Nat := if es = [] then 0 else endOf blkHdrSize [] es.dropLast

/-- A search splits the entries of a block and finds the records on both sides. -/
theorem naiveSearch_split (h : WfBlk b es) (key : List UInt8) :
    ∃ pre post, es = pre ++ post ∧ (∀ e ∈ pre, e.before key = true) ∧ (∀ e, post.head? = some e → e.before key = false) ∧
      (naiveSearch b key).prevRec = ⟨lastOff pre, lcp (lastKey [] pre) key⟩ ∧
      (naiveSearch b key).currRec = ⟨endOf blkHdrSize [] pre, currMatch key post⟩ := by
  have hs : naiveSearch b key = (searchEntries key ⟨0, 0⟩ [] blkHdrSize es).1 := congrArg Prod.fst (naiveSearch_eq h key)
  rcases entries_split key es with hstop | ⟨pre, last, post, rfl, hpre, hlast, hpost⟩
  · refine ⟨[], es, rfl, by simp, hstop, ?_, ?_⟩
    · rw [hs, searchEntries_stop _ _ _ hstop]
      simp [lastOff, lastKey]
    · rw [hs, searchEntries_stop _ _ _ hstop]
      rfl
  · refine ⟨pre ++ [last], post, by simp, ?_, hpost, ?_, ?_⟩
    · intro e he
      rcases List.mem_append.1 he with he | he
      · exact hpre e he
      · obtain rfl : e = last := by simpa using he
        exact hlast
    · rw [hs, searchEntries_skip _ _ _ _ hpre hlast, searchEntries_stop _ _ _ hpost, lastKey_append]
      simp [lastOff, lastKey]
    · rw [hs, searchEntries_skip _ _ _ _ hpre hlast, searchEntries_stop _ _ _ hpost, endOf_append]
      rfl

theorem Entry.not_before_iff : e.before key = false ↔ ∀ k, e.key = some k → key ≤ k := by
  rw [Entry.before]
  cases e.key <;> simp

/-- Behind the first entry that is not before a key, no entry is. -/
theorem Contents.not_before (h : Contents level0 n prior es)
    (hhead : ∀ e, es.head? = some e → e.before key = false) (he : e ∈ es) : e.before key = false := by
  induction es generalizing prior with
  | nil => simp at he
  | cons e' es ih =>
    have hfirst := hhead e' rfl
    rcases List.mem_cons.1 he with rfl | he
    · exact hfirst
    · have hsplit : Contents level0 n prior ([e'] ++ es) := h
      obtain ⟨k, hk⟩ := hsplit.key_of_append (List.ne_nil_of_mem he) (List.mem_singleton_self e')
      simp only [Contents, hk] at h
      refine ih h.2.2.2 (fun x hx => Entry.not_before_iff.2 fun kx hkx => ?_) he
      exact (Entry.not_before_iff.1 hfirst k hk).trans (h.2.2.2.prior_lt (List.mem_of_mem_head? hx) hkx).le

/-! ## The cut -/

/-- How a call of `gvcst_kill_blk` cuts the entries of a block. How far the record at `high` agrees with the last one before the
range follows from the match counts, and the search key has the bytes that the records of the range have supplied. -/
structure Cut (searchKey : List UInt8) (low high : SrchRec) (before range behind : List Entry) : Prop where
  lowOff : low.offset = lastOff before
  highOff : high.offset = endOf blkHdrSize [] (before ++ range)
  shared : ∀ t, behind.head? = some t → lcp (lastKey [] before) t.keyBytes =
    min (lcp (lastKey [] (before ++ range)) t.keyBytes) (min low.mtch high.mtch)
  supplied : ∀ t, behind.head? = some t → min low.mtch high.mtch < lcp (lastKey [] (before ++ range)) t.keyBytes →
    searchKey.take (lcp (lastKey [] (before ++ range)) t.keyBytes) = t.keyBytes.take (lcp (lastKey [] (before ++ range)) t.keyBytes)

/-- Of the record behind the range only the key matters, which the star entry does not have. -/
theorem Cut.of_keys {searchKey : List UInt8} {low high : SrchRec} {before range behind : List Entry}
    (hlow : low.offset = lastOff before) (hhigh : high.offset = endOf blkHdrSize [] (before ++ range))
    (h : ∀ t kt, behind.head? = some t → t.key = some kt →
      lcp (lastKey [] before) kt = min (lcp (lastKey [] (before ++ range)) kt) (min low.mtch high.mtch) ∧
      (min low.mtch high.mtch < lcp (lastKey [] (before ++ range)) kt →
        searchKey.take (lcp (lastKey [] (before ++ range)) kt) = kt.take (lcp (lastKey [] (before ++ range)) kt))) :
    Cut searchKey low high before range behind := by
  refine ⟨hlow, hhigh, fun t ht => ?_, fun t ht => ?_⟩
  · cases hk : t.key with
    | none => simp [Entry.keyBytes, hk]
    | some kt => simpa [Entry.keyBytes, hk] using (h t kt ht hk).1
  · cases hk : t.key with
    | none => simp [Entry.keyBytes, hk]
    | some kt => simpa [Entry.keyBytes, hk] using (h t kt ht hk).2

/-- No key of the range agrees with one behind it further than with the left end. -/
def Closer (key alt : List UInt8) (es : List Entry) : Prop :=
  ∀ d ∈ es, ∀ t ∈ es, ∀ kd kt, d.key = some kd → t.key = some kt → key ≤ kd → kd < alt → alt ≤ kt → lcp kd kt ≤ lcp key kd

/-- The key before the range agrees with that behind it as far as both ends let it. -/
theorem lcp_across {p : List UInt8} (hp : p ≤ key) (hk : key ≤ d) (ha : d ≤ alt) (ht : alt ≤ t)
    (hclose : lcp d t ≤ lcp key d) : lcp p t = min (lcp d t) (min (lcp p key) (lcp t alt)) := by
  have h1 : lcp p d = min (lcp p key) (lcp key d) := lcp_of_le_of_le hp hk
  have h2 : lcp p t = min (lcp p d) (lcp d t) := lcp_of_le_of_le (hp.trans hk) (ha.trans ht)
  have h3 : lcp d t = min (lcp d alt) (lcp alt t) := lcp_of_le_of_le ha ht
  have h4 : lcp alt t = lcp t alt := lcp_comm _ _
  omega

/-- So does the first key of the range that is left. -/
theorem lcp_within {p : List UInt8} (hk : key ≤ p) (hp : p ≤ d) (ha : d ≤ alt) (ht : alt ≤ t)
    (hclose : lcp d t ≤ lcp key d) : lcp p t = min (lcp d t) (min (lcp p key) (lcp t alt)) := by
  have h1 : lcp key d = min (lcp key p) (lcp p d) := lcp_of_le_of_le hk hp
  have h2 : lcp p t = min (lcp p d) (lcp d t) := lcp_of_le_of_le hp (ha.trans ht)
  have h3 : lcp d t = min (lcp d alt) (lcp alt t) := lcp_of_le_of_le ha ht
  have h4 : lcp alt t = lcp t alt := lcp_comm _ _
  have h5 : lcp p key = lcp key p := lcp_comm _ _
  omega

/-- Bytes of the right end that the key behind it shares with a key before it. -/
theorem take_of_le (ha : d ≤ alt) (ht : alt ≤ t) : alt.take (lcp d t) = t.take (lcp d t) := by
  have h : lcp d t = min (lcp d alt) (lcp alt t) := lcp_of_le_of_le ha ht
  exact take_eq_of_le_lcp (by omega)

/-- Bytes of the left end that a key of the range shares with one behind it. -/
theorem take_of_closer (hclose : lcp d t ≤ lcp key d) : key.take (lcp d t) = t.take (lcp d t) := by
  rw [take_eq_of_le_lcp hclose, take_eq_of_le_lcp (le_refl (lcp d t))]

/-- The parts the two ends of a range split the entries of a block into. -/
structure Parts (b : GdsBlk) (key alt : List UInt8) (pre mid post : List Entry) : Prop where
  wf : WfBlk b (pre ++ mid ++ post)
  closer : Closer key alt (pre ++ mid ++ post)
  left : ∀ e ∈ pre, e.before key = true
  midLeft : ∀ e ∈ mid, e.before key = false
  midRight : ∀ e ∈ mid, e.before alt = true
  right : ∀ e ∈ post, e.before alt = false
  keyRec : naiveSearch b key = ⟨⟨lastOff pre, lcp (lastKey [] pre) key⟩, ⟨endOf blkHdrSize [] pre, currMatch key (mid ++ post)⟩⟩
  altRec : (naiveSearch b alt).currRec = ⟨endOf blkHdrSize [] (pre ++ mid), currMatch alt post⟩

/-- Two lists with a common continuation: one is a beginning of the other. -/
theorem exists_mid_of_append_eq {α : Type} {u v u' v' : List α} {p : α → Bool} (h : u ++ v = u' ++ v') (hu : ∀ a ∈ u, p a = true)
    (hv' : ∀ a ∈ v', p a = false) : ∃ m, u' = u ++ m ∧ v = m ++ v' := by
  rcases List.append_eq_append_iff.1 h with ⟨m, rfl, rfl⟩ | ⟨m, rfl, rfl⟩
  · exact ⟨m, rfl, rfl⟩
  · cases m with
    | nil => exact ⟨[], by simp, by simp⟩
    | cons a m =>
      have h1 := hu a (by simp)
      have h2 := hv' a (by simp)
      rw [h1] at h2
      cases h2

theorem Entry.before_mono (hle : key ≤ alt) (he : e.before key = true) : e.before alt = true := by
  obtain ⟨k, hk, hlt⟩ := Entry.before_iff.1 he
  exact Entry.before_iff.2 ⟨k, hk, hlt.trans_le hle⟩

/-- Every block has the parts. -/
theorem parts_of_wf (h : WfBlk b es) (hle : key ≤ alt)
    (hclose : Closer key alt es) : ∃ pre mid post, es = pre ++ mid ++ post ∧ Parts b key alt pre mid post := by
  obtain ⟨pre, rest, hes, hpre, hrest, hprev, hcurr⟩ := naiveSearch_split h key
  obtain ⟨pre', post, hes', hpre', hpost, -, haltRec⟩ := naiveSearch_split h alt
  have hall : ∀ {k : List UInt8} {u v : List Entry}, es = u ++ v → (∀ e, v.head? = some e → e.before k = false) →
      ∀ e ∈ v, e.before k = false := by
    intro k u v heq hhead e he
    have hc := h.contents
    rw [heq] at hc
    exact (hc.append (List.ne_nil_of_mem he)).not_before hhead he
  have hpostAll := hall hes' hpost
  obtain ⟨mid, rfl, rfl⟩ := exists_mid_of_append_eq (hes.symm.trans hes') (fun e he => Entry.before_mono hle (hpre e he)) hpostAll
  have hsplit : es = pre ++ mid ++ post := hes'
  rw [hsplit] at h hclose
  refine ⟨pre, mid, post, hsplit, h, hclose, hpre, fun e he => hall hes hrest e (by simp [he]), fun e he => hpre' e (by simp [he]),
    hpostAll, ?_, haltRec⟩
  rw [← hprev, ← hcurr]

namespace Parts

variable {b : GdsBlk} {key alt : List UInt8} {pre mid post : List Entry}

section
variable (h : Parts b key alt pre mid post)
include h

/-- The key before the range is before its left end. -/
theorem lastKey_pre_le : lastKey [] pre ≤ key := by
  by_cases hpre : pre = []
  · subst hpre
    exact not_lt.1 (List.not_lt_nil _)
  · obtain ⟨e, he, heq⟩ := lastKey_mem [] hpre
    obtain ⟨k, hk, hlt⟩ := Entry.before_iff.1 (h.left e he)
    rw [← heq, Entry.keyBytes, hk]
    exact hlt.le

/-- An entry of the range has a key in it. -/
theorem key_of_mid {e : Entry} (he : e ∈ mid) : ∃ k, e.key = some k ∧ key ≤ k ∧ k < alt := by
  obtain ⟨k, hk, hlt⟩ := Entry.before_iff.1 (h.midRight e he)
  exact ⟨k, hk, Entry.not_before_iff.1 (h.midLeft e he) k hk, hlt⟩

/-- The last key of the range. -/
theorem lastKey_mid (prior : List UInt8) (hmid : mid ≠ []) :
    key ≤ lastKey prior mid ∧ lastKey prior mid < alt ∧ ∀ t ∈ post, ∀ kt, t.key = some kt →
      lcp (lastKey prior mid) kt ≤ lcp key (lastKey prior mid) := by
  obtain ⟨e, he, heq⟩ := lastKey_mem prior hmid
  obtain ⟨k, hk, hle, hlt⟩ := h.key_of_mid he
  have hkb : lastKey prior mid = k := by rw [← heq, Entry.keyBytes, hk, Option.getD_some]
  rw [hkb]
  refine ⟨hle, hlt, fun t ht kt hkt => ?_⟩
  exact h.closer e (by simp [he]) t (by simp [ht]) k kt hk hkt hle hlt (Entry.not_before_iff.1 (h.right t ht) kt hkt)

end

theorem currMatch_head {key : List UInt8} {es : List Entry} {e : Entry} {k : List UInt8} (he : es.head? = some e)
    (hk : e.key = some k) : currMatch key es = lcp k key := by
  obtain ⟨-, rfl⟩ := List.head?_eq_some_iff.1 he
  simp [currMatch, hk]

/-- All records of the range go. -/
theorem cut_all (h : Parts b key alt pre mid post) (hle : key ≤ alt) :
    Cut key (naiveSearch b key).prevRec (naiveSearch b alt).currRec pre mid post := by
  rw [h.keyRec, h.altRec]
  have hp := h.lastKey_pre_le
  refine Cut.of_keys rfl rfl fun t kt ht hkt => ?_
  have hmem := List.mem_of_mem_head? ht
  have hak := Entry.not_before_iff.1 (h.right t hmem) kt hkt
  rw [currMatch_head ht hkt, lastKey_append]
  by_cases hmid : mid = []
  · -- nothing between: the record at the right end is next to that before
    subst hmid
    have h1 : lcp (lastKey [] pre) kt = min (lcp (lastKey [] pre) key) (lcp key kt) := lcp_of_le_of_le hp (hle.trans hak)
    have h2 : lcp (lastKey [] pre) kt = min (lcp (lastKey [] pre) alt) (lcp alt kt) := lcp_of_le_of_le (hp.trans hle) hak
    have h3 : lcp alt kt = lcp kt alt := lcp_comm _ _
    simp only [lastKey]
    exact ⟨by omega, fun hlt => absurd hlt (by omega)⟩
  · obtain ⟨hk, ha, hclose⟩ := h.lastKey_mid (lastKey [] pre) hmid
    exact ⟨lcp_across hp hk ha.le hak (hclose t hmem kt hkt), fun _ => take_of_closer (hclose t hmem kt hkt)⟩

/-- The first record of the range is left. -/
theorem cut_but_first {first : Entry} (h : Parts b key alt pre (first :: mid) post) :
    Cut key (naiveSearch b key).currRec (naiveSearch b alt).currRec (pre ++ [first]) mid post := by
  obtain ⟨k, hk, hle, -⟩ := h.key_of_mid (e := first) (by simp)
  have hkb : first.keyBytes = k := by simp [Entry.keyBytes, hk]
  have hlast : lastKey [] (pre ++ [first]) = k := by rw [lastKey_append, lastKey, lastKey, hkb]
  rw [h.keyRec, h.altRec]
  refine Cut.of_keys (by simp [lastOff]) (by simp) fun t kt ht hkt => ?_
  have hmem := List.mem_of_mem_head? ht
  have hak := Entry.not_before_iff.1 (h.right t hmem) kt hkt
  obtain ⟨-, ha, hclose⟩ := h.lastKey_mid (lastKey [] pre) (List.cons_ne_nil _ _)
  have hd : lastKey [] (pre ++ [first] ++ mid) = lastKey (lastKey [] pre) (first :: mid) := by
    rw [List.append_assoc, lastKey_append]
    rfl
  have hpd : k ≤ lastKey (lastKey [] pre) (first :: mid) := by
    have hc := h.wf.contents
    rw [List.append_assoc] at hc
    have hc' := hc.append (by simp)
    simp only [List.cons_append, Contents, hk] at hc'
    rw [lastKey, hkb]
    exact hc'.2.2.2.le_lastKey (List.ne_nil_of_mem hmem)
  have hclose := hclose t hmem kt hkt
  rw [currMatch_head ht hkt, currMatch_head rfl hk, hlast, hd]
  exact ⟨lcp_within hle hpd ha.le hak hclose, fun _ => take_of_closer hclose⟩

/-- The range goes on in the blocks to the right. -/
theorem cut_left (h : Parts b key alt pre mid post) : Cut key (naiveSearch b key).prevRec ⟨b.bsiz, 0⟩ pre (mid ++ post) [] := by
  rw [h.keyRec]
  refine Cut.of_keys rfl ?_ nofun
  rw [← List.append_assoc]
  exact h.wf.laid.end_eq.symm

/-- The range goes on in the blocks to the right, and the child at its left end is left. -/
theorem cut_left_but_first {first : Entry} {rest : List Entry} (h : Parts b key alt pre mid post) (hrest : mid ++ post = first :: rest) :
    Cut key (naiveSearch b key).currRec ⟨b.bsiz, 0⟩ (pre ++ [first]) rest [] := by
  rw [h.keyRec]
  refine Cut.of_keys (by simp [lastOff]) ?_ nofun
  rw [List.append_assoc, List.singleton_append, ← hrest, ← List.append_assoc]
  exact h.wf.laid.end_eq.symm

/-- The range starts in the blocks to the left. -/
theorem cut_right (h : Parts b key alt pre mid post) (hle : key ≤ alt) : Cut alt ⟨0, 0⟩ (naiveSearch b alt).currRec [] (pre ++ mid) post := by
  rw [h.altRec]
  refine Cut.of_keys rfl rfl fun t kt ht hkt => ⟨by simp [lastKey], fun _ => ?_⟩
  have hak := Entry.not_before_iff.1 (h.right t (List.mem_of_mem_head? ht)) kt hkt
  refine take_of_le ?_ hak
  rw [List.nil_append, lastKey_append]
  by_cases hmid : mid = []
  · subst hmid
    exact h.lastKey_pre_le.trans hle
  · exact (h.lastKey_mid (lastKey [] pre) hmid).2.1.le

end Parts

variable {es : List Entry} {y : List UInt8}

/-- Every call of a kill cuts the entries; where the record at the right end goes as well, there is one. -/
theorem KillCall.cut {b : GdsBlk} {key alt searchKey : List UInt8} {low high : SrchRec} {rightExtra : Bool}
    (hcall : KillCall b key alt searchKey low high rightExtra) (h : WfBlk b es) (hle : key ≤ alt) (hclose : Closer key alt es) :
    ∃ before range behind, es = before ++ range ++ behind ∧ Cut searchKey low high before range behind ∧
      (rightExtra = true → behind ≠ []) := by
  obtain ⟨pre, mid, post, rfl, hparts⟩ := parts_of_wf h hle hclose
  -- an index block ends with a star entry, which is in no range
  have hindex : b.levl ≠ 0 → post ≠ [] := by
    rintro hlevl rfl
    have hc := h.contents
    rw [List.append_nil] at hc
    obtain ⟨e, he, hstar⟩ := hc.star (by simpa using hlevl)
    rcases List.mem_append.1 he with he | he
    · obtain ⟨k, hk, -⟩ := Entry.before_iff.1 (hparts.left e he)
      simp [hstar] at hk
    · obtain ⟨k, hk, -⟩ := hparts.key_of_mid he
      simp [hstar] at hk
  cases hcall with
  | both leftExtra rightExtra start apart =>
    have hextra : rightExtra = true → post ≠ [] := by
      intro hr
      refine hindex fun hlevl => ?_
      rw [(start hlevl).2] at hr
      cases hr
    cases leftExtra with
    | true => exact ⟨pre, mid, post, rfl, hparts.cut_all hle, hextra⟩
    | false =>
      cases mid with
      | nil =>
        refine absurd ?_ (apart rfl)
        rw [hparts.keyRec, hparts.altRec, List.append_nil]
      | cons first mid => exact ⟨pre ++ [first], mid, post, by simp, hparts.cut_but_first, hextra⟩
  | left leftExtra start =>
    cases leftExtra with
    | true => exact ⟨pre, mid ++ post, [], by simp, hparts.cut_left, nofun⟩
    | false =>
      have hne : mid ++ post ≠ [] := by
        have := hindex fun hlevl => by simpa using start hlevl
        simp [this]
      obtain ⟨first, rest, hrest⟩ := List.exists_cons_of_ne_nil hne
      exact ⟨pre ++ [first], rest, [], by simp [hrest], hparts.cut_left_but_first hrest, nofun⟩
  | right rightExtra start =>
    refine ⟨[], pre ++ mid, post, by simp, hparts.cut_right hle, fun hr => hindex fun hlevl => ?_⟩
    rw [start hlevl] at hr
    cases hr

/-! ## The right end of the range -/

/-- A key before a right end that is a beginning of the left end, a byte and delimiters, parts from it within that beginning. -/
theorem lcp_le_of_lt_end {d z : List UInt8} {c : UInt8} (hd : isKey d = true) (hz : ∀ a ∈ z, a = 0)
    (hend : isKey (y ++ c :: z) = true) (hlt : d < y ++ c :: z) : lcp d (y ++ c :: z) ≤ y.length := by
  obtain ⟨p, a, a', u, v, hd', heq, haa'⟩ := split_of_lt hlt fun hp => hlt.ne (isKey_prefix_eq hd hend hp)
  rw [heq, hd', lcp_of_split _ _ _ haa'.ne]
  by_contra hlong
  -- the byte at which they part would be a delimiter of the right end
  have hget : (y ++ c :: z)[p.length]? = some a' := by rw [heq]; simp
  rw [List.getElem?_append_right (by omega), show p.length - y.length = (p.length - y.length - 1) + 1 by omega,
    List.getElem?_cons_succ] at hget
  have hzero := hz a' (List.mem_of_getElem? hget)
  subst hzero
  exact absurd haa' (by simp)

theorem length_le_lcp_of_between {u v d : List UInt8} (hle : y ++ u ≤ d) (hle' : d ≤ y ++ v) : y.length ≤ lcp (y ++ u) d := by
  have h := lcp_of_le_of_le hle hle'
  rw [lcp_append_left] at h
  omega

/-- The right end continues a beginning of the left end with a byte and delimiters. -/
theorem closer_of_end {u z : List UInt8} {c : UInt8} (hkeys : ∀ e ∈ es, ∀ k, e.key = some k → isKey k = true)
    (hz : ∀ a ∈ z, a = 0) (hend : isKey (y ++ c :: z) = true) : Closer (y ++ u) (y ++ c :: z) es := by
  intro d hd t _ kd kt hkd _ hle hlt hge
  have h1 := lcp_le_of_lt_end (hkeys d hd kd hkd) hz hend hlt
  have h2 := length_le_lcp_of_between hle hlt.le
  have h3 : lcp kd kt = min (lcp kd (y ++ c :: z)) (lcp (y ++ c :: z) kt) := lcp_of_le_of_le hlt.le hge
  omega

theorem Contents.isKey_key {level0 : Bool} {n : Nat} {prior : List UInt8} (h : Contents level0 n prior es)
    {e : Entry} (he : e ∈ es) {k : List UInt8} (hk : e.key = some k) : isKey k = true := by
  induction es generalizing prior with
  | nil => simp at he
  | cons e' es ih =>
    cases hk' : e'.key with
    | none =>
      simp only [Contents, hk'] at h
      obtain ⟨-, rfl, -⟩ := h
      obtain rfl : e = e' := by simpa using he
      simp [hk] at hk'
    | some k' =>
      simp only [Contents, hk'] at h
      rcases List.mem_cons.1 he with rfl | he
      · rw [hk] at hk'
        cases hk'
        exact h.1
      · exact ih h.2.2.2 he

/-- The last numbers of chunks, both bytes at `STR_SUB_MAXVAL`, are not in use: the right end of a kill of chunks is one of them. -/
def ChunksBelow (k : GvKey) (es : List Entry) : Prop :=
  ∀ e ∈ es, ¬k.base.take (k.kend - 3) ++ [0xFF, 0xFF] <+: e.keyBytes

theorem le_ff (a : UInt8) : a ≤ 0xFF := by
  have ha := a.toNat_lt
  change a.toNat ≤ 255
  omega

/-- Behind the largest chunk number there are only keys that start with it. -/
theorem ff_prefix_of_le {w : List UInt8} (h : [0xFF, 0xFF, 0, 0] ≤ w) : [0xFF, 0xFF] <+: w := by
  have hcons : ∀ {z : List UInt8} {w : List UInt8}, 0xFF :: z ≤ w → ∃ w', w = 0xFF :: w' ∧ z ≤ w' := by
    intro z w hle
    cases w with
    | nil => exact absurd hle (not_le.2 (List.nil_lt_cons _ _))
    | cons a w =>
      rcases cons_le_cons_iff.1 hle with hlt | ⟨rfl, hle'⟩
      · exact absurd (le_ff a) (not_le.2 hlt)
      · exact ⟨w, rfl, hle'⟩
  obtain ⟨w, rfl, h1⟩ := hcons h
  obtain ⟨w', rfl, -⟩ := hcons h1
  exact ⟨w', rfl⟩

theorem chunk_le_ff {x : List UInt8} (hx : x.length ≤ 2) : x ++ [0, 0] ≤ [0xFF, 0xFF, 0, 0] := by
  have hcons : ∀ {u v : List UInt8} (a : UInt8), u ≤ v → a :: u ≤ 0xFF :: v := by
    intro u v a huv
    rcases lt_or_eq_of_le (le_ff a) with hlt | rfl
    · exact cons_le_cons_iff.2 (.inl hlt)
    · exact cons_le_cons_iff.2 (.inr ⟨rfl, huv⟩)
  match x with
  | [] => decide
  | [a] => exact hcons a (by decide)
  | [a, c] => exact hcons a (hcons c le_rfl)
  | _ :: _ :: _ :: _ => simp at hx

/-- The ranges `gvcst_kill2` deletes. -/
theorem killAltkey_closer {k : GvKey} {level0 : Bool} {n : Nat} (hk : isKey k.bytes = true)
    (hc : Contents level0 n [] es) (doSubtree killingChunks : Bool) (hchunks : doSubtree = false → killingChunks = true → ChunksBelow k es) :
    k.bytes ≤ killAltkey k doSubtree killingChunks ∧ Closer k.bytes (killAltkey k doSubtree killingChunks) es := by
  have hkeys : ∀ e ∈ es, ∀ k, e.key = some k → isKey k = true := fun e he k hk => hc.isKey_key he hk
  obtain ⟨u, hu⟩ := isKey_ends hk
  have hbase : k.base = u ++ [0] := by
    have h : k.base ++ [keyDelimiter] = (u ++ [keyDelimiter]) ++ [keyDelimiter] := by
      rw [← GvKey.bytes, hu]
      simp
    exact (List.append_inj' h rfl).1
  have hkend : k.kend = u.length + 1 := by simp [GvKey.kend, hbase]
  -- a right end is a key if it continues a beginning of the left end with a byte that is no delimiter
  have hisKey : ∀ m < k.bytes.length, ∀ t : List UInt8, isKey (0 :: t) = true → isKey t = true → isKey (k.bytes.take m ++ t) = true :=
    fun m hm t h0 h1 => isKey_append (isKey_take hk hm) (fun _ => h0) (fun _ => h1)
  have hlen : k.bytes.length = u.length + 2 := by simp [hu]
  cases doSubtree with
  | true =>
    have halt : killAltkey k true killingChunks = u ++ [1, 0, 0] := by simp [killAltkey, hbase, hkend, keyDelimiter]
    have htake : k.bytes.take u.length = u := by simp [hu]
    rw [halt, hu]
    refine ⟨(append_left_le_iff _ _ _).2 (by decide), closer_of_end hkeys (by simp) ?_⟩
    rw [← htake]
    exact hisKey u.length (by omega) _ (by decide) (by decide)
  | false =>
    cases killingChunks with
    | false =>
      have halt : killAltkey k false false = k.base ++ [1, 0, 0] := by simp [killAltkey, keyDelimiter]
      have htake : k.bytes.take (u.length + 1) = k.base := by
        rw [GvKey.bytes, List.take_append_of_le_length (by simp [hbase]), hbase]
        exact List.take_of_length_le (by simp)
      rw [halt]
      refine ⟨(append_left_le_iff _ _ _).2 (by decide), closer_of_end hkeys (by simp) ?_⟩
      rw [← htake]
      exact hisKey (u.length + 1) (by omega) _ (by decide) (by decide)
    | true =>
      have halt : killAltkey k false true = k.base.take (k.kend - 3) ++ [0xFF, 0xFF, 0, 0] := by simp [killAltkey, keyDelimiter]
      set z := k.base.take (k.kend - 3) with hz
      have hzu : z = u.take (u.length - 2) := by
        rw [hz, hkend, hbase, List.take_append_of_le_length (by omega)]
        rfl
      have hbytes : k.bytes = z ++ (u.drop (u.length - 2) ++ [0, 0]) := by
        rw [hu, hzu, ← List.append_assoc, List.take_append_drop]
        rfl
      rw [hbytes]
      refine ⟨(append_left_le_iff _ _ _).2 (chunk_le_ff (by simp; omega)), ?_⟩
      intro d hd t ht kd kt hkd hkt hle hlt hge
      have h2 := length_le_lcp_of_between hle hlt.le
      have h3 : lcp kd kt = min (lcp kd (z ++ [0xFF, 0xFF, 0, 0])) (lcp (z ++ [0xFF, 0xFF, 0, 0]) kt) := lcp_of_le_of_le hlt.le hge
      have h4 : lcp (z ++ [0xFF, 0xFF, 0, 0]) kt ≤ z.length := by
        by_contra hlong
        obtain ⟨w, rfl⟩ : z <+: kt := by
          have htake := take_eq_of_le_lcp (show z.length ≤ lcp (z ++ [0xFF, 0xFF, 0, 0]) kt by omega)
          rw [List.take_left] at htake
          exact htake ▸ List.take_prefix _ _
        refine hchunks rfl rfl t ht ?_
        rw [Entry.keyBytes, hkt, ← hz]
        exact (List.prefix_append_right_inj z).2 (ff_prefix_of_le ((append_left_le_iff _ _ _).1 hge))
      omega

end Gtm
