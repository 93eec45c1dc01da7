import Gtm.Lemmas.BlkSearch

/-!
# The search from the middle of a block

What an earlier search leaves behind splits the entries: those before the old search key, and the others. A later search for a
greater key passes all of the former, so that it may start between them. How far the record before agrees with the new key follows
from how far the old key agrees with both.
-/

namespace Gtm

open CommonPrefix LexOrder

/-! ## Splitting the entries -/

/-- The offset behind entries. -/
def endOf : Nat → List UInt8 → List Entry → Nat
  | off, _, [] => off
  | off, prior, e :: es => endOf (off + e.size prior) e.keyBytes es

/-- The key of the last of some entries. -/
def lastKey : List UInt8 → List Entry → List UInt8
  | prior, [] => prior
  | _, e :: es => lastKey e.keyBytes es

variable {post pre : List Entry} {prior key : List UInt8} {n : Nat}

theorem Laid.append {b : GdsBlk} {off : Nat} (h : Laid b off prior (pre ++ post)) :
    Laid b (endOf off prior pre) (lastKey prior pre) post := by
  induction pre generalizing off prior with
  | nil => exact h
  | cons e pre ih => exact ih h.2.2.2.2

theorem Contents.append {level0 : Bool} (hpost : post ≠ [])
    (h : Contents level0 n prior (pre ++ post)) : Contents level0 n (lastKey prior pre) post := by
  induction pre generalizing prior with
  | nil => exact h
  | cons e pre ih =>
    cases hk : e.key with
    | none =>
      simp only [List.cons_append, Contents, hk] at h
      exact absurd h.2.1 (by simp [hpost])
    | some k =>
      simp only [List.cons_append, Contents, hk] at h
      have hkb : e.keyBytes = k := by simp [Entry.keyBytes, hk]
      rw [lastKey, hkb]
      exact ih h.2.2.2

theorem Contents.lastKey_isKey {level0 : Bool} (hpost : post ≠ [])
    (h : Contents level0 n prior (pre ++ post)) (hprior : prior ≠ [] → isKey prior = true) :
    lastKey prior pre ≠ [] → isKey (lastKey prior pre) = true := by
  induction pre generalizing prior with
  | nil => exact hprior
  | cons e pre ih =>
    cases hk : e.key with
    | none =>
      simp only [List.cons_append, Contents, hk] at h
      exact absurd h.2.1 (by simp [hpost])
    | some k =>
      simp only [List.cons_append, Contents, hk] at h
      have hkb : e.keyBytes = k := by simp [Entry.keyBytes, hk]
      rw [lastKey, hkb]
      exact ih h.2.2.2 fun _ => h.1

theorem endOf_ge (off : Nat) (prior : List UInt8) (es : List Entry) : off ≤ endOf off prior es := by
  induction es generalizing off prior with
  | nil => exact le_rfl
  | cons e es ih => exact le_trans (Nat.le_add_right _ _) (ih _ _)

/-- The entry has a key before the search key. -/
def Entry.before (key : List UInt8) (e : Entry) : Bool := e.key.any fun k => decide (k < key)

theorem Entry.before_iff {e : Entry} : e.before key = true ↔ ∃ k, e.key = some k ∧ k < key := by
  rw [Entry.before]
  cases e.key <;> simp

/-- How far the first of some entries agrees with the search key. -/
def currMatch (key : List UInt8) : List Entry → Nat
  | [] => 0
  | e :: _ => (e.key.map fun k => lcp k key).getD 0

/-- A search passes entries before its key. -/
theorem searchEntries_skip (prev : SrchRec) (prior : List UInt8) (off : Nat) {last : Entry}
    (post : List Entry) (hpre : ∀ e ∈ pre, e.before key = true) (hlast : last.before key = true) :
    searchEntries key prev prior off (pre ++ last :: post) = searchEntries key ⟨endOf off prior pre, lcp last.keyBytes key⟩ last.keyBytes
        (endOf off prior pre + last.size (lastKey prior pre)) post := by
  induction pre generalizing prev prior off with
  | nil =>
    obtain ⟨k, hk, hlt⟩ := Entry.before_iff.1 hlast
    simp [searchEntries, hk, hlt, endOf, lastKey, Entry.keyBytes]
  | cons e pre ih =>
    obtain ⟨k, hk, hlt⟩ := Entry.before_iff.1 (hpre e (by simp))
    have hkb : e.keyBytes = k := by simp [Entry.keyBytes, hk]
    simp only [List.cons_append, searchEntries, hk, if_pos hlt, endOf, lastKey, hkb]
    exact ih _ _ _ fun e' he' => hpre e' (List.mem_cons_of_mem _ he')

/-- A search stops at entries of which the first is not before its key. -/
theorem searchEntries_stop (prev : SrchRec) (prior : List UInt8) (off : Nat) (hpost : ∀ e, post.head? = some e → e.before key = false) :
    searchEntries key prev prior off post = (⟨prev, ⟨off, currMatch key post⟩⟩, prior) := by
  cases post with
  | nil => rfl
  | cons e post =>
    have hnot := hpost e rfl
    cases hk : e.key with
    | none => simp [searchEntries, currMatch, hk]
    | some k =>
      have hge : ¬k < key := by simpa [Entry.before, hk] using hnot
      simp [searchEntries, currMatch, hk, hge]

/-- The entries before a search key, the last of them apart, and the others. -/
theorem entries_split (key : List UInt8) (es : List Entry) : (∀ e, es.head? = some e → e.before key = false) ∨
    ∃ pre last post, es = pre ++ last :: post ∧ (∀ e ∈ pre, e.before key = true) ∧ last.before key = true ∧
      ∀ e, post.head? = some e → e.before key = false := by
  have hpost : ∀ e, (es.dropWhile (Entry.before key)).head? = some e → e.before key = false := by
    intro e he
    have h := List.head?_dropWhile_not (Entry.before key) es
    rw [he] at h
    simpa using h
  have hsplit := (List.takeWhile_append_dropWhile (p := Entry.before key) (l := es))
  rcases List.eq_nil_or_concat (es.takeWhile (Entry.before key)) with hnil | ⟨pre, last, hcat⟩
  · left
    rw [hnil, List.nil_append] at hsplit
    rwa [hsplit] at hpost
  · right
    rw [List.concat_eq_append] at hcat
    have hmem : ∀ e ∈ pre ++ [last], e.before key = true := by
      intro e he
      rw [← hcat] at he
      exact List.all_eq_true.1 List.all_takeWhile e he
    refine ⟨pre, last, es.dropWhile (Entry.before key), ?_, fun e he => hmem e (by simp [he]), hmem last (by simp), hpost⟩
    rw [hcat] at hsplit
    simpa using hsplit.symm

/-! ## Agreement of two keys -/

/-- A key that is not another one differs from it before its end. -/
theorem lcp_lt_length {k old : List UInt8} (hik : isKey k = true) (hold : isKey old = true) (hne : k ≠ old) : lcp k old < k.length := by
  refine lt_of_le_of_ne (lcp_le_left _ _) fun h => hne (isKey_prefix_eq hik hold ?_)
  have htake := take_eq_of_le_lcp (le_refl (lcp k old))
  rw [h, List.take_length] at htake
  exact htake ▸ List.take_prefix _ _

/-- The count of equal bytes is how far the keys agree, as far as it looks. -/
theorem agreeFrom_eq {old : List UInt8} (hkey : isKey key = true) (hold : isKey old = true) (hne : key ≠ old) {i : Nat}
    (hi : i ≤ lcp key old) : agreeFrom key old n i = min n (lcp key old - i) := by
  have hlk : lcp key old < key.length := lcp_lt_length hkey hold hne
  have hlo : lcp key old < old.length := by
    rw [lcp_comm]
    exact lcp_lt_length hold hkey hne.symm
  induction n generalizing i with
  | zero => simp [agreeFrom]
  | succ n ih =>
    have hget : ∀ {l : List UInt8} (h : i < l.length), l.getD i 0 = l[i] := fun h => by simp [h]
    rw [agreeFrom, hget (by omega), hget (by omega)]
    by_cases heq : i = lcp key old
    · have hdiff : key[i] ≠ old[i] := by
        intro hsame
        have hle : i + 1 ≤ lcp key old := by
          rw [le_lcp_iff]
          refine ⟨by omega, by omega, ?_⟩
          rw [List.take_succ_eq_append_getElem (by omega), List.take_succ_eq_append_getElem (by omega), hsame, take_eq_of_le_lcp hi]
        omega
      rw [if_pos hdiff]
      omega
    · have hsame : key[i] = old[i] := by
        have htake := take_eq_of_le_lcp (show i + 1 ≤ lcp key old by omega)
        rw [List.take_succ_eq_append_getElem (by omega), List.take_succ_eq_append_getElem (by omega)] at htake
        simpa using (List.append_inj' htake rfl).2
      rw [if_neg (by simp [hsame]), ih (by omega)]
      omega

/-! ## The resumed search -/

section Tail

variable {env : SrchEnv} {b : GdsBlk} {key old k k' prevKey : List UInt8} {o off : Nat} {alt : Option Altkey} {e : Entry}
  {post : List Entry}

/-- How the search resumed at a record enters the loop: behind the record if its key is before the new search key; otherwise it
stops there. The match counts are those of the new key. -/
theorem tailEntry_key (hkey : isKey key = true) (hold : isKey old = true) (hlt : old < key) (hik : isKey k = true) (hkold : k < old)
    (hl : Laid b off k (e :: post)) (hek : e.key = some k') (hik' : isKey k' = true) (hle : old ≤ k') (hoff : off ≠ 0)
    (halt : AltIs b prevKey alt k) (hfit : alt ≠ none → k'.length ≤ env.altTop) (m : Nat) :
    (k' < key ∧ ∃ v, tailEntry b key old ⟨⟨o, lcp k old⟩, ⟨off, m⟩⟩ alt = .next v ∧
      SearchAt env b key prevKey v (off + e.size k) k' ∧ v.pRecBase = off ∧ v.alt = alt) ∨
    (¬k' < key ∧ ∃ v, tailEntry b key old ⟨⟨o, lcp k old⟩, ⟨off, m⟩⟩ alt = .stop v ∧
      v.stat = ⟨⟨o, lcp k key⟩, ⟨off, lcp k' key⟩⟩ ∧ v.alt = alt) := by
  have hkb : e.keyBytes = k' := by simp [Entry.keyBytes, hek]
  have hkk' : k < k' := hkold.trans_le hle
  have hdata : e.data k = k'.drop (lcp k k') ++ e.val := by simp [Entry.data, Entry.cmpc, Entry.keyBytes, hek]
  have hcmpc : b.evalCmpc off = lcp k k' := by
    have := hl.2.1
    rwa [Entry.cmpc, hkb] at this
  have hrsiz := hl.1
  have hbytes := hl.2.2.1
  rw [hdata] at hbytes
  -- how far the keys agree
  have h1 : lcp k k' = min (lcp k old) (lcp old k') := lcp_of_le_of_le hkold.le hle
  have h2 : lcp k key = min (lcp k old) (lcp old key) := lcp_of_le_of_le hkold.le hlt.le
  have hcomm : lcp key old = lcp old key := lcp_comm _ _
  have hpre : ¬old <+: key := fun hp => hlt.ne (isKey_prefix_eq hold hkey hp)
  have hagree : agreeFrom key old (lcp k k') 0 = min (lcp k k') (lcp old key) := by
    rw [agreeFrom_eq hkey hold hlt.ne' (Nat.zero_le _), hcomm, Nat.sub_zero]
  -- the expansion goes on at this record
  have hexpand : ∀ x, alt = some x → ∃ x', expandStep env b prevKey off (lcp k k') x = some x' ∧ Expands b prevKey x' k' := by
    intro x hx
    rw [← hcmpc, hl.2.1]
    exact hl.expandStep hek hik' (fun _ => hik) hkk' (halt x hx) (hfit (by simp [hx]))
  have hat : k' < key → ∀ v : SrchVars, v.pRecBase = off → v.nRecLen = e.size k → v.nTmp = lcp k k' → v.nMatchCnt = lcp k' key →
      v.pCurrTarg = lcp k' key → v.nTargLen = key.length - lcp k' key → v.alt = alt →
      SearchAt env b key prevKey v (off + e.size k) k' := by
    intro hk'key v hv1 hv2 hv3 hv4 hv5 hv6 hv7
    refine ⟨by rw [hv1, hv2], hv4, hv5, hv6, hk'key, fun _ => hik', ?_⟩
    intro x hx
    rw [hv7] at hx
    rw [hv1, hv3, if_neg hoff]
    exact hexpand x hx
  simp only [tailEntry, hcmpc, hrsiz, hagree]
  by_cases hcase : lcp old key < lcp k k'
  · -- the new key leaves the old one before the record does
    obtain ⟨hk'key, heq⟩ := lt_of_lcp_lt hpre hlt (show lcp old key < lcp old k' by omega)
    have hnflg : 0 < (key.getD (lcp old key) 0).toNat - ((old.getD (lcp old key) 0).toNat : Int) := by
      obtain ⟨p, x, y, u, w, hold', hkey', hxy⟩ := split_of_lt hlt hpre
      have hp : lcp old key = p.length := by rw [hold', hkey', lcp_of_split _ _ _ hxy.ne]
      have hx : old.getD p.length 0 = x := by simp [hold']
      have hy : key.getD p.length 0 = y := by simp [hkey']
      rw [hp, hx, hy]
      have := UInt8.lt_iff_toNat_lt.1 hxy
      omega
    rw [Nat.min_eq_right hcase.le, if_neg hcase.ne, if_pos hnflg]
    exact .inl ⟨hk'key, _, rfl, hat hk'key _ rfl rfl rfl heq.symm heq.symm (by rw [heq]) rfl, rfl, rfl⟩
  · have hm : lcp k k' ≤ lcp k' key := by
      rw [le_lcp_iff]
      refine ⟨lcp_le_right _ _, (not_lt.1 hcase).trans (lcp_le_right _ _), ?_⟩
      rw [← take_eq_of_le_lcp (show lcp k k' ≤ lcp old k' by omega), take_eq_of_le_lcp (show lcp k k' ≤ lcp old key by omega)]
    have hmatch : lcp k k' + agreeFrom key old (lcp k old - lcp k k') (lcp k k') = lcp k key := by
      rw [agreeFrom_eq hkey hold hlt.ne' (by omega)]
      omega
    rw [Nat.min_eq_left (not_lt.1 hcase)]
    simp only [if_true, lt_irrefl, if_false, hmatch]
    rw [searchCompare_key hkey hik' hm rfl (GdsBlk.hasBytes_append.1 hbytes).1 (by simp [isStarRec])]
    by_cases hk'key : k' < key
    · rw [if_pos hk'key]
      exact .inl ⟨hk'key, _, rfl, hat hk'key _ rfl rfl rfl rfl rfl rfl rfl, rfl, rfl⟩
    · rw [if_neg hk'key]
      exact .inr ⟨hk'key, _, rfl, rfl, rfl⟩

/-- The expansion the resumed search starts with. -/
def startAlt (start : Option (List UInt8)) : Option Altkey :=
  start.map fun k => ⟨k.take (k.length - 2), k.length - 2, some (.key (k.length - 2))⟩

theorem altIs_startAlt (b : GdsBlk) {start : Option (List UInt8)} (hik : isKey k = true) (hstart : start = none ∨ start = some k) :
    AltIs b (start.getD []) (startAlt start) k := by
  intro x hx
  rcases hstart with rfl | rfl
  · cases hx
  · have hlen := isKey_length hik
    cases hx
    refine ⟨Nat.sub_le _ _, by rw [List.take_take, Nat.min_self], ?_, nofun, fun _ _ => rfl, nofun⟩
    intro p hp
    cases hp
    refine ⟨by simp only; omega, ?_⟩
    refine List.ext_getElem (by simp) fun i h1 h2 => ?_
    simp only [List.length_drop] at h2
    have hi : k.length - 2 + i < k.length := by omega
    simp [KeyPtr.byte, hi]

/-- The positions are filled in whatever becomes of the expansion. -/
theorem searchEnd_stat {pTop : KeyPtr} {fuel : Nat} {stat : SrchStat} {altkey : List UInt8} {v : SrchVars} :
    (searchEnd env b prevKey pTop fuel stat altkey (.ok v)).stat = v.stat := by
  rw [searchEnd]
  cases v.alt with
  | none => rfl
  | some x =>
    simp only
    split <;> rfl

/-- The expansion ends with a key in `gv_altkey` where its pointers stay below the limit. -/
theorem searchEnd_key {pTop : KeyPtr} {fuel : Nat} {stat : SrchStat} {altkey : List UInt8} {v : SrchVars}
    (halt : AltIs b prevKey v.alt k) (hik : k ≠ [] → isKey k = true) (hfit : v.alt ≠ none → k.length ≤ env.altTop)
    (hreach : ∀ x p, v.alt = some x → x.unCmp = some p → ∀ j, x.cmpLen + j + 2 ≤ k.length → p.reaches env j pTop = false)
    (hfuel : ∀ x p, v.alt = some x → x.unCmp = some p → k.length - x.cmpLen ≤ fuel) :
    searchEnd env b prevKey pTop fuel stat altkey (.ok v) = ⟨.normal, v.stat, if v.alt = none then altkey else k⟩ := by
  rw [searchEnd]
  cases hv : v.alt with
  | none => rfl
  | some x =>
    have hfin := expandFinish_key (halt x hv) hik (hfit (by simp [hv])) (fun p hp => hreach x p hv hp) (fun hu => by
      obtain ⟨p, hp⟩ := Option.ne_none_iff_exists'.1 hu
      exact hfuel x p hv hp)
    simp only [hfin]
    rfl

end Tail

/-! ## The key of the record before -/

section PrevKey

variable {env : SrchEnv} {b : GdsBlk} {old k : List UInt8}

variable {idSz : Nat} {last : Entry} {level0 : Bool} {post pre : List Entry}

/-- The loop of `gvcst_expand_key` comes to the record it looks for with its key. -/
theorem expandKeyLoop_entries {n rp rOff off : Nat} {prior : List UInt8}
    {x : Altkey} (hl : Laid b off prior (pre ++ last :: post)) (hc : Contents level0 idSz prior (pre ++ last :: post))
    (hprior : prior ≠ [] → isKey prior = true) (hlast : last.key = some k) (hx : Expands b [] x prior) (hoff : rp + rOff = off)
    (hsz : recHdrSize ≤ rOff) (hfit : ∀ e ∈ pre ++ [last], e.keyBytes.length ≤ env.altTop) (hfuel : endOf off prior pre + 1 ≤ n + off) :
    ∃ x', expandKeyLoop env b (endOf off prior pre) n rp rOff x = .ok x' ∧ Expands b [] x' k := by
  induction pre generalizing off prior n rp rOff x with
  | nil =>
    obtain ⟨n, rfl⟩ : ∃ m, n = m + 1 := ⟨n - 1, by simp only [endOf] at hfuel; omega⟩
    simp only [List.nil_append, Contents, hlast] at hc hl
    have hfitk : k.length ≤ env.altTop := by simpa [Entry.keyBytes, hlast] using hfit last (by simp)
    obtain ⟨x', hstep, hexp⟩ := hl.expandStep hlast hc.1 hprior hc.2.1 hx hfitk
    rw [← hl.2.1] at hstep
    refine ⟨x', ?_, hexp⟩
    rw [expandKeyLoop, if_neg (by omega), hoff]
    simp only [endOf, lt_irrefl, if_false, hstep, if_true]
  | cons e pre ih =>
    cases hk : e.key with
    | none =>
      simp only [List.cons_append, Contents, hk] at hc
      exact absurd hc.2.1 (by simp)
    | some ke =>
      have hkb : e.keyBytes = ke := by simp [Entry.keyBytes, hk]
      simp only [List.cons_append, Contents, hk] at hc hl
      have hfitk : ke.length ≤ env.altTop := by simpa [hkb] using hfit e (by simp)
      obtain ⟨x', hstep, hexp⟩ := hl.expandStep hk hc.1 hprior hc.2.1 hx hfitk
      have hrsiz := hl.1
      have hsize := e.recHdrSize_le_size prior
      have hge := endOf_ge (off + e.size prior) e.keyBytes pre
      rw [← hl.2.1] at hstep
      simp only [endOf] at hfuel ⊢
      rw [recHdrSize] at hsize hsz
      obtain ⟨n, rfl⟩ : ∃ m, n = m + 1 := ⟨n - 1, by omega⟩
      rw [expandKeyLoop, recHdrSize, if_neg (by omega), hoff, if_neg (by omega)]
      simp only [hstep]
      rw [if_neg (by omega), hrsiz]
      have hrest := hl.2.2.2.2
      rw [hkb] at hrest ⊢
      rw [hkb] at hfuel
      exact ih hrest hc.2.2.2 (fun _ => hc.1) hexp rfl (by rw [recHdrSize]; omega)
        (fun e' he' => hfit e' (List.mem_cons_of_mem _ he')) (by omega)

/-- The last checks on an expanded key pass. -/
theorem expandedKey_of_isKey (hk : isKey k = true) (hstart : k.head? ≠ some keyDelimiter) : expandedKey k = .ok k := by
  rw [expandedKey, if_neg hstart]
  obtain ⟨u, rfl⟩ := isKey_ends hk
  rcases List.eq_nil_or_concat u with rfl | ⟨w, a, rfl⟩
  · simp at hstart
  · have ha : a ≠ keyDelimiter := by
      rintro rfl
      have := isKey_two_delims (p := w) (q := [keyDelimiter]) (by simpa using hk)
      simp at this
    simp [ha]

theorem gvcstExpandKey_entries (hl : Laid b blkHdrSize [] (pre ++ last :: post)) (hc : Contents level0 idSz [] (pre ++ last :: post))
    (hlast : last.key = some k) (hb : b.bsiz ≤ env.blkSize) (hstart : k.head? ≠ some keyDelimiter)
    (hfit : ∀ e ∈ pre ++ [last], e.keyBytes.length ≤ env.altTop) : gvcstExpandKey env b (endOf blkHdrSize [] pre) = .ok k := by
  have hik : isKey k = true := by
    have := hc.append (by simp)
    simp only [Contents, hlast] at this
    exact this.1
  have hfitk : k.length ≤ env.altTop := by simpa [Entry.keyBytes, hlast] using hfit last (by simp)
  have hx0 : Expands b [] ⟨[], 0, none⟩ [] := ⟨by simp, rfl, (by intros; rename_i h; cases h), (by intros; rename_i h; cases h), (by intros; rename_i h; cases h), fun _ => rfl⟩
  obtain ⟨x, hloop, hx⟩ : ∃ x, expandKeyLoop env b (endOf blkHdrSize [] pre) (endOf blkHdrSize [] pre + 1) 0 blkHdrSize ⟨[], 0, none⟩ =
      .ok x ∧ Expands b [] x k :=
    expandKeyLoop_entries hl hc (fun h => absurd rfl h) hlast hx0 (Nat.zero_add _) (by simp [recHdrSize, blkHdrSize]) hfit (by omega)
  have htop : srchTop env b = b.bsiz := Nat.min_eq_left hb
  have hnokey : ∀ off, x.unCmp ≠ some (.key off) := by
    intro off hu
    have hlen := (hx.rest _ hu).1
    simp [hx.inKey off hu] at hlen
  have hfin : expandFinish env b [] (.blk (b.bsiz - 1)) b.bsiz x = some k := by
    refine expandFinish_key hx (fun _ => hik) hfitk ?_ ?_
    · intro p hp j hj
      cases p with
      | blk off => exact hx.reaches_blk hp hj
      | key off => exact absurd hp (hnokey off)
    · intro hu
      obtain ⟨p, hp⟩ := Option.ne_none_iff_exists'.1 hu
      cases p with
      | blk off =>
        have := hx.inBlk off hp
        omega
      | key off => exact absurd hp (hnokey off)
  rw [gvcstExpandKey, hloop]
  simp only [htop, hfin]
  exact expandedKey_of_isKey hik hstart

theorem copyDelims_key {dstTop n src : Nat} {dst t : List UInt8} (ht : isKey t = true) (hb : b.HasBytes src t)
    (htop : dst.length + t.length ≤ dstTop) (hn : t.length ≤ n) : copyDelims b dstTop n dst src = .ok (dst ++ t) := by
  induction t generalizing dst src n with
  | nil => simp [isKey] at ht
  | cons a t ih =>
    cases t with
    | nil => simp [isKey] at ht
    | cons c rest =>
      obtain ⟨ha, hrest⟩ := GdsBlk.hasBytes_cons.1 hb
      obtain ⟨hcb, -⟩ := GdsBlk.hasBytes_cons.1 hrest
      simp only [List.length_cons] at htop hn
      obtain ⟨n, rfl⟩ : ∃ m, n = m + 1 := ⟨n - 1, by omega⟩
      rw [copyDelims, if_neg (by omega), ha, hcb]
      rcases isKey_cons_cons.1 ht with ⟨rfl, rfl, rfl⟩ | ⟨hne, ht'⟩
      · simp
      · rw [if_neg hne, ih ht' hrest (by simp; omega) (by simp; omega)]
        simp

/-- How many bytes are taken from the search key: one less where the last of them is a delimiter. -/
def takenMatch (b : GdsBlk) (srchKey : List UInt8) (offset mtch : Nat) : Nat :=
  if b.evalCmpc offset < mtch ∧ srchKey.getD (mtch - 1) 0 = keyDelimiter then mtch - 1 else mtch

/-- The bytes of a key that the search key has, and the others from its record. -/
theorem copyDelims_shared {off c : Nat} {val : List UInt8} (hik : isKey k = true) (hcmpc : b.evalCmpc off = c)
    (hdata : b.HasBytes (off + recHdrSize) (k.drop c ++ val)) (hc : c + 2 ≤ k.length) (hle : c ≤ lcp k old)
    (hlen : lcp k old < k.length) (hfit : k.length ≤ env.altTop) : takenMatch b old off (lcp k old) + 2 ≤ k.length ∧
      copyDelims b env.altTop env.altTop (old.take (takenMatch b old off (lcp k old)))
        (off + recHdrSize + (takenMatch b old off (lcp k old) - c)) = .ok k := by
  set m := takenMatch b old off (lcp k old) with hm
  have htake : k.take (lcp k old) = old.take (lcp k old) := take_eq_of_le_lcp le_rfl
  -- the bytes taken from the search key leave two and more of the key
  have hmle : c ≤ m ∧ m ≤ lcp k old ∧ m + 2 ≤ k.length := by
    rw [hm, takenMatch]
    split
    · next hback => omega
    · next hback =>
      refine ⟨by omega, le_rfl, ?_⟩
      by_cases heq : lcp k old = c
      · omega
      · have hne : old.getD (lcp k old - 1) 0 ≠ keyDelimiter := fun h => hback ⟨by omega, h⟩
        have hsame : k.getD (lcp k old - 1) 0 = old.getD (lcp k old - 1) 0 := by
          have hi : lcp k old - 1 < lcp k old := by omega
          rw [List.getD_eq_getElem?_getD, List.getD_eq_getElem?_getD, ← List.getElem?_take_of_lt hi, htake, List.getElem?_take_of_lt hi]
        obtain ⟨u, hu⟩ := isKey_ends hik
        have hul := congrArg List.length hu
        simp only [List.length_append, List.length_cons, List.length_nil] at hul
        by_contra hshort
        rw [← hsame, show lcp k old - 1 = u.length by omega, hu] at hne
        simp at hne
  have hbytes : b.HasBytes (off + recHdrSize + (m - c)) (k.drop m) := by
    have hd : k.drop c = (k.drop c).take (m - c) ++ k.drop m := by
      conv_lhs => rw [← List.take_append_drop (m - c) (k.drop c), List.drop_drop]
      rw [show c + (m - c) = m by omega]
    have h' := (GdsBlk.hasBytes_append.1 hdata).1
    rw [hd] at h'
    have h'' := (GdsBlk.hasBytes_append.1 h').2
    rwa [List.length_take, List.length_drop, Nat.min_eq_left (by omega)] at h''
  have htakem : old.take m = k.take m := (take_eq_of_le_lcp hmle.2.1).symm
  refine ⟨hmle.2.2, ?_⟩
  rw [copyDelims_key (isKey_drop hik hmle.2.2) hbytes, htakem, List.take_append_drop]
  · rw [List.length_take, List.length_drop]
    omega
  · rw [List.length_drop]
    omega

/-- `gvcst_expand_prev_key` behind a search: the key of the record before. -/
theorem gvcstExpandPrevKey_entries {curr : SrchRec}
    (hl : Laid b blkHdrSize [] (pre ++ last :: post)) (hc : Contents level0 idSz [] (pre ++ last :: post))
    (hlast : last.key = some k) (hb : b.bsiz ≤ env.blkSize) (hstart : k.head? ≠ some keyDelimiter)
    (hfit : ∀ e ∈ pre ++ [last], e.keyBytes.length ≤ env.altTop) (hold : isKey old = true) (hlt : k < old) :
    gvcstExpandPrevKey env b ⟨⟨endOf blkHdrSize [] pre, lcp k old⟩, curr⟩ old = .ok k := by
  have hkb : last.keyBytes = k := by simp [Entry.keyBytes, hlast]
  have hc' := hc.append (by simp)
  simp only [Contents, hlast] at hc'
  obtain ⟨hik, hpk, -, -⟩ := hc'
  have hfitk : k.length ≤ env.altTop := by simpa [hkb] using hfit last (by simp)
  have hl' := hl.append
  have hcmpc : b.evalCmpc (endOf blkHdrSize [] pre) = lcp (lastKey [] pre) k := by
    have := hl'.2.1
    rwa [Entry.cmpc, hkb] at this
  have hdata : b.HasBytes (endOf blkHdrSize [] pre + recHdrSize) (k.drop (lcp (lastKey [] pre) k) ++ last.val) := by
    have h := hl'.2.2.1
    rwa [Entry.data, Entry.cmpc, hkb] at h
  have hc2 := cmpc_add_two_le (hc.lastKey_isKey (by simp) (fun h => absurd rfl h)) hik hpk
  have hoff := endOf_ge blkHdrSize [] pre
  simp only [gvcstExpandPrevKey, hcmpc]
  rw [if_neg (by omega)]
  split
  · exact gvcstExpandKey_entries hl hc hlast hb hstart hfit
  · next hge =>
    obtain ⟨hm, hcopy⟩ := copyDelims_shared hik hcmpc hdata hc2 (not_lt.1 hge) (lcp_lt_length hik hold hlt.ne) hfitk
    rw [takenMatch, hcmpc] at hm hcopy
    rw [if_neg (by omega), hcopy]
    exact expandedKey_of_isKey hik hstart

end PrevKey

/-! ## The whole of the resumed search -/

section Whole

variable {env : SrchEnv} {b : GdsBlk} {key old k altkey : List UInt8} {pre post : List Entry} {last : Entry}
  {start : Option (List UInt8)}

/-- The positions a search for the old key has left: behind the last entry before it. -/
def splitStat (old : List UInt8) (pre : List Entry) (last : Entry) (post : List Entry) : SrchStat :=
  ⟨⟨endOf blkHdrSize [] pre, lcp last.keyBytes old⟩,
    ⟨endOf blkHdrSize [] pre + last.size (lastKey [] pre), currMatch old post⟩⟩

variable {stat : SrchStat} {v : SrchVars}

/-- The end of a search inside the block, whose pointers are not taken for ones behind it. -/
theorem searchEnd_inBlk {prevKey : List UInt8} (halt : AltIs b prevKey v.alt k)
    (hik : k ≠ [] → isKey k = true) (hfit : v.alt ≠ none → k.length ≤ env.altTop)
    (habove : (∀ x off, v.alt = some x → x.unCmp ≠ some (.key off)) ∨ env.keyAbove = false) :
    searchEnd env b prevKey (.blk (b.bsiz - 1)) (b.bsiz + prevKey.length) stat altkey (.ok v) =
      ⟨.normal, v.stat, if v.alt = none then altkey else k⟩ := by
  refine searchEnd_key halt hik hfit ?_ ?_
  · intro x p hx hp j hj
    cases p with
    | blk off => exact (halt x hx).reaches_blk hp hj
    | key off => exact habove.resolve_left fun h => h x off hx hp
  · intro x p hx hp
    cases p with
    | blk off =>
      have := (halt x hx).inBlk off hp
      omega
    | key off =>
      have := (halt x hx).inKey off hp
      rw [this]
      omega

/-- A pointer into a key that lies above the block is taken for one behind it. -/
theorem searchEnd_keyAbove {prevKey : List UInt8} {x : Altkey} {off top fuel : Nat}
    (habove : env.keyAbove = true) (hx : v.alt = some x) (hu : x.unCmp = some (.key off)) :
    (searchEnd env b prevKey (.blk top) fuel stat altkey (.ok v)).sc = .blkmod := by
  have hscan : scanDelims env b prevKey (.blk top) (.key off) fuel 0 = none := by
    cases fuel with
    | zero => rfl
    | succ fuel => rw [scanDelims, KeyPtr.reaches, habove, if_pos rfl]
  simp only [searchEnd, hx, expandFinish, hu, hscan]

/-- The end of a search inside the block leaves the key of the record before, or fails. -/
theorem searchEnd_or {prevKey : List UInt8} (halt : AltIs b prevKey v.alt k)
    (hik : k ≠ [] → isKey k = true) (hfit : v.alt ≠ none → k.length ≤ env.altTop) :
    searchEnd env b prevKey (.blk (b.bsiz - 1)) (b.bsiz + prevKey.length) stat altkey (.ok v) =
        ⟨.normal, v.stat, if v.alt = none then altkey else k⟩ ∨
      (searchEnd env b prevKey (.blk (b.bsiz - 1)) (b.bsiz + prevKey.length) stat altkey (.ok v)).sc = .blkmod := by
  cases habove : env.keyAbove with
  | false => exact .inl (searchEnd_inBlk halt hik hfit (.inr habove))
  | true =>
    by_cases hkey : ∀ x off, v.alt = some x → x.unCmp ≠ some (.key off)
    · exact .inl (searchEnd_inBlk halt hik hfit (.inl hkey))
    · push Not at hkey
      obtain ⟨x, off, hx, hu⟩ := hkey
      exact .inr (searchEnd_keyAbove habove hx hu)

/-- The loop of the resumed search finds the position the search by full keys finds. -/
theorem tailLoop_entries {prevKey : List UInt8} {alt : Option Altkey} {o off : Nat} {e : Entry} (hkey : isKey key = true)
    (hold : isKey old = true) (hlt : old < key) (hik : isKey k = true) (hkold : k < old) (hl : Laid b off k (e :: post))
    (hc : Contents true (sizeofBlkId b.longBlkId) k (e :: post)) (hnot : e.before old = false) (hoff : off ≠ 0)
    (halt : AltIs b prevKey alt k) (hfit : alt ≠ none → ∀ e' ∈ e :: post, e'.keyBytes.length ≤ env.altTop) (m : Nat) :
    ∃ v, searchLoop env b key prevKey true b.bsiz (b.bsiz + 1) (tailEntry b key old ⟨⟨o, lcp k old⟩, ⟨off, m⟩⟩ alt) = .ok v ∧
      v.stat = (searchEntries key ⟨o, lcp k key⟩ k off (e :: post)).1 ∧ (v.alt = none ↔ alt = none) ∧
      AltIs b prevKey v.alt (searchEntries key ⟨o, lcp k key⟩ k off (e :: post)).2 := by
  cases hek : e.key with
  | none => simp [Contents, hek] at hc
  | some k' =>
    have hkb : e.keyBytes = k' := by simp [Entry.keyBytes, hek]
    simp only [Contents, hek] at hc
    have hle : old ≤ k' := by simpa [Entry.before, hek] using hnot
    have hfit' : alt ≠ none → k'.length ≤ env.altTop := fun ha => by simpa [hkb] using hfit ha e (by simp)
    rcases tailEntry_key (o := o) hkey hold hlt hik hkold hl hek hc.1 hle hoff halt hfit' m with
      ⟨hkk, v, hentry, hat, hbase, hv⟩ | ⟨hkk, v, hentry, hvs, hv⟩
    · have hrest := hl.2.2.2.2
      rw [hkb] at hrest
      obtain ⟨v', hloop, hvs, hvn, hexp⟩ := searchLoop_entries (n := b.bsiz + 1) hkey hrest hc.2.2.2 hat (by omega) (by intros; rename_i h; cases h)
        (fun ha e' he' => hfit (fun hn => ha (hv.trans hn)) e' (List.mem_cons_of_mem _ he')) (by omega)
      rw [hbase, hat.mtch] at hvs hexp
      simp only [searchEntries, hek, if_pos hkk]
      rw [hentry]
      exact ⟨v', hloop, hvs, hvn.trans (by rw [hv]), hexp⟩
    · simp only [searchEntries, hek, if_neg hkk]
      rw [hentry]
      exact ⟨v, rfl, hvs, by rw [hv], by rw [hv]; exact halt⟩

/-- The resumed search finds what the search by full keys finds. -/
theorem searchTail_entries (altkey : List UInt8) (h : WfBlk b (pre ++ last :: post)) (hlevl : b.levl = 0) (hb : b.bsiz ≤ env.blkSize)
    (hlast : last.key = some k) (hpre : ∀ e ∈ pre, e.before old = true) (hkold : k < old)
    (hpost : ∀ e, post.head? = some e → e.before old = false) (hold : isKey old = true) (hkey : isKey key = true) (hlt : old < key)
    (hstart : start = none ∨ start = some k)
    (hfit : start ≠ none → ∀ e ∈ pre ++ last :: post, e.keyBytes.length ≤ env.altTop) :
    (searchTail env b key old (splitStat old pre last post) altkey start).stat =
        (searchEntries key ⟨0, 0⟩ [] blkHdrSize (pre ++ last :: post)).1 ∧
      (start = none ∨ env.keyAbove = false → searchTail env b key old (splitStat old pre last post) altkey start =
          ⟨.normal, (searchEntries key ⟨0, 0⟩ [] blkHdrSize (pre ++ last :: post)).1,
            if start = none then altkey else (searchEntries key ⟨0, 0⟩ [] blkHdrSize (pre ++ last :: post)).2⟩) ∧
      (searchTail env b key old (splitStat old pre last post) altkey start =
          ⟨.normal, (searchEntries key ⟨0, 0⟩ [] blkHdrSize (pre ++ last :: post)).1,
            if start = none then altkey else (searchEntries key ⟨0, 0⟩ [] blkHdrSize (pre ++ last :: post)).2⟩ ∨
        (searchTail env b key old (splitStat old pre last post) altkey start).sc = .blkmod) := by
  have hkb : last.keyBytes = k := by simp [Entry.keyBytes, hlast]
  have hc := h.contents.append (by simp)
  simp only [Contents, hlast, hlevl, decide_true] at hc
  obtain ⟨hik, -, -, hcpost⟩ := hc
  have hl := h.laid.append.2.2.2.2
  rw [hkb] at hl
  have hall : ∀ e ∈ pre, e.before key = true := by
    intro e he
    obtain ⟨ke, hke, hlt'⟩ := Entry.before_iff.1 (hpre e he)
    exact Entry.before_iff.2 ⟨ke, hke, hlt'.trans hlt⟩
  have htop : srchTop env b = b.bsiz := Nat.min_eq_left hb
  have halt := altIs_startAlt b hik hstart
  have hnone : startAlt start = none ↔ start = none := by simp [startAlt]
  have hge : 16 ≤ endOf blkHdrSize [] pre := endOf_ge 16 [] pre
  rw [searchEntries_skip _ _ _ post hall (Entry.before_iff.2 ⟨k, hlast, hkold.trans hlt⟩), splitStat, hkb]
  generalize endOf blkHdrSize [] pre = o at hl hge ⊢
  generalize hoff : o + last.size (lastKey [] pre) = off at hl ⊢
  simp only [searchTail, htop]
  rw [show (start.map fun k => Altkey.mk (k.take (k.length - 2)) (k.length - 2) (some (.key (k.length - 2)))) = startAlt start
    from rfl]
  cases post with
  | nil =>
    have hend : off = b.bsiz := hl
    have hmatch : agreeFrom key old (lcp k old) 0 = lcp k key := by
      rw [agreeFrom_eq hkey hold hlt.ne' (Nat.zero_le _), lcp_comm key old, Nat.sub_zero, lcp_of_le_of_le hkold.le hlt.le]
    rw [if_pos hend.ge, if_neg (by omega), hmatch]
    have hboth : ∀ {p q r : Prop}, q → (p → q) ∧ (q ∨ r) := fun h => ⟨fun _ => h, .inl h⟩
    refine ⟨searchEnd_stat, hboth ?_⟩
    have hfitk : startAlt start ≠ none → k.length ≤ env.altTop := by
      intro hs
      rw [← hkb]
      exact hfit (fun hn => hs (hnone.2 hn)) last (by simp)
    simp only [← hnone, searchEntries]
    refine searchEnd_key halt (fun _ => hik) hfitk ?_ ?_
    · intro x p hx hp j hj
      rcases hstart with rfl | rfl
      · cases hx
      · cases hx
        cases hp
        simp only at hj
        simp only [KeyPtr.reaches, Option.getD_some, decide_eq_false_iff_not]
        omega
    · intro x p hx hp
      rcases hstart with rfl | rfl
      · cases hx
      · cases hx
        simp only [Option.getD_some]
        omega
  | cons e post =>
    have hlt' := hl.off_lt (by simp)
    have hfit' : startAlt start ≠ none → ∀ e' ∈ e :: post, e'.keyBytes.length ≤ env.altTop := fun hs e' he' =>
      hfit (fun hn => hs (hnone.2 hn)) e' (by simp only [List.mem_append, List.mem_cons] at he' ⊢; tauto)
    obtain ⟨v, hloop, hvs, hvn, hexp⟩ := tailLoop_entries (o := o) hkey hold hlt hik hkold hl hcpost (hpost e rfl) (by omega) halt hfit'
      (currMatch old (e :: post))
    rw [if_neg (by omega), hloop]
    have hfitv : v.alt ≠ none → (searchEntries key ⟨o, lcp k key⟩ k off (e :: post)).2.length ≤ env.altTop := fun hs => by
      have hs' : startAlt start ≠ none := fun hn => hs (hvn.2 hn)
      refine searchEntries_fit _ _ _ ?_ (hfit' hs')
      rw [← hkb]
      exact hfit (fun hn => hs' (hnone.2 hn)) last (by simp)
    refine ⟨searchEnd_stat.trans hvs, fun habove => ?_, ?_⟩
    · simp only [← hvs, ← hnone, ← hvn]
      refine searchEnd_inBlk hexp (searchEntries_prior _ _ _ hcpost fun _ => hik) hfitv ?_
      rcases habove with hs | ha
      · refine .inl fun x off hx => ?_
        rw [hvn.2 (hnone.2 hs)] at hx
        cases hx
      · exact .inr ha
    · simp only [← hvs, ← hnone, ← hvn]
      exact searchEnd_or hexp (searchEntries_prior _ _ _ hcpost fun _ => hik) hfitv

/-- `gvcst_search_tail` behind a search for a smaller key in a leaf: what a search by full keys finds, unless a pointer into the key
buffer is taken for one behind the block. -/
theorem gvcstSearchTail_wf {es : List Entry} (h : WfBlk b es) (hlevl : b.levl = 0) (hb : b.bsiz ≤ env.blkSize)
    (hfit : env.expandPrevKey = true → ∀ e ∈ es, e.keyBytes.length ≤ env.altTop) (hold : isKey old = true) (hkey : isKey key = true)
    (hlt : old < key) (altkey : List UInt8) {prevKey : Option (List UInt8)}
    (hprev : prevKey = none ∨ prevKey = some (naivePrevKey b old)) :
    let out := gvcstSearchTail env b key old (naiveSearch b old) altkey prevKey
    let found : SrchOut := ⟨.normal, naiveSearch b key, if env.expandPrevKey = true then naivePrevKey b key else altkey⟩
    out.stat = found.stat ∧ (env.expandPrevKey = false ∨ env.keyAbove = false → out = found) ∧ (out = found ∨ out.sc = .blkmod) := by
  intro out found
  have hnaive : ∀ k, naiveSearch b k = (searchEntries k ⟨0, 0⟩ [] blkHdrSize es).1 ∧
      naivePrevKey b k = (searchEntries k ⟨0, 0⟩ [] blkHdrSize es).2 := fun k => by
    rw [← naiveSearch_eq h k]
    exact ⟨rfl, rfl⟩
  have hfound : found = ⟨.normal, (searchEntries key ⟨0, 0⟩ [] blkHdrSize es).1,
      if env.expandPrevKey = true then (searchEntries key ⟨0, 0⟩ [] blkHdrSize es).2 else altkey⟩ := by
    simp only [found, (hnaive key).1, (hnaive key).2]
  have hall : ∀ {q : Prop}, out = found → out.stat = found.stat ∧ (q → out = found) ∧ (out = found ∨ out.sc = .blkmod) :=
    fun heq => ⟨congrArg SrchOut.stat heq, fun _ => heq, .inl heq⟩
  rcases entries_split old es with hstop | ⟨pre, last, post, rfl, hpre, hlast, hpost⟩
  · -- no record is before the old key: the resumed search starts over
    have h0 : (naiveSearch b old).prevRec.offset = 0 := by
      rw [(hnaive old).1, searchEntries_stop ⟨0, 0⟩ [] blkHdrSize hstop]
    refine hall ?_
    rw [hfound, show out = gvcstSearchBlk env b key (naiveSearch b old) altkey from if_pos h0, gvcstSearchBlk_wf h hb hkey hfit]
    simp only [hlevl, true_and]
  · obtain ⟨k, hk, hkold⟩ := Entry.before_iff.1 hlast
    have hkb : last.keyBytes = k := by simp [Entry.keyBytes, hk]
    have hsplit : naiveSearch b old = splitStat old pre last post ∧ naivePrevKey b old = k := by
      rw [(hnaive old).1, (hnaive old).2, searchEntries_skip _ _ _ post hpre hlast, searchEntries_stop _ _ _ hpost]
      exact ⟨rfl, hkb⟩
    have h0 : (splitStat old pre last post).prevRec.offset ≠ 0 := by
      have hge : 16 ≤ endOf blkHdrSize [] pre := endOf_ge 16 [] pre
      rw [splitStat]
      simp only
      omega
    have htail := fun ak start hstart hs => @searchTail_entries env b key old k pre post last start ak h hlevl hb hk hpre hkold hpost
      hold hkey hlt hstart hs
    rw [hfound]
    cases hexp : env.expandPrevKey with
    | false =>
      have hout : out = searchTail env b key old (splitStat old pre last post) altkey none := by
        simp only [out, gvcstSearchTail, hsplit.1, if_neg h0, hexp, Bool.false_eq_true, if_false]
      obtain ⟨hstat, heq, hor⟩ := htail altkey none (.inl rfl) (by intro h; simp at h)
      rw [hout]
      exact ⟨hstat, fun _ => heq (.inl rfl), hor⟩
    | true =>
      have hexpand : gvcstExpandPrevKey env b (splitStat old pre last post) old = .ok k := by
        have hstart := h.start hlevl last (by simp)
        rw [hkb] at hstart
        rw [splitStat, hkb]
        exact gvcstExpandPrevKey_entries h.laid h.contents hk hb hstart
          (fun e he => hfit hexp e (by simp only [List.mem_append, List.mem_cons] at he ⊢; tauto)) hold hkold
      obtain ⟨ak, hout⟩ : ∃ ak, out = searchTail env b key old (splitStat old pre last post) ak (some k) := by
        rcases hprev with rfl | rfl
        · exact ⟨k, by simp only [out, gvcstSearchTail, hsplit.1, if_neg h0, hexp, if_true, hexpand]⟩
        · exact ⟨altkey, by simp only [out, gvcstSearchTail, hsplit.1, hsplit.2, if_neg h0, hexp, if_true]⟩
      obtain ⟨hstat, heq, hor⟩ := htail ak (some k) (.inr rfl) fun _ => hfit hexp
      rw [hout]
      exact ⟨hstat, fun ha => heq (.inr (by simpa [hexp] using ha)), hor⟩

end Whole

end Gtm
