import Gtm.Gds.Search
import Gtm.Lemmas.KillRange
import Gtm.Theorems.BlockSearch

/-!
# The keys at the position of a search

What a search leaves are the match counts of the records on both sides of its key. The record at its key has no more compressed bytes
than it shares with the key, so that these can be taken from there.
-/

namespace Gtm

open CommonPrefix LexOrder

/-! ## Records of a block -/

theorem placed_append (off : Nat) (prior : List UInt8) (es es' : List Entry) :
    placed off prior (es ++ es') = placed off prior es ++ placed (endOf off prior es) (lastKey prior es) es' := by
  induction es generalizing off prior with
  | nil => rfl
  | cons e es ih => exact congrArg ((off, e.key) :: ·) (ih _ _)

/-- A record is that of an entry. -/
theorem entry_of_placed {off o : Nat} {prior : List UInt8} {k : Option (List UInt8)} {es : List Entry} (h : (o, k) ∈ placed off prior es) :
    ∃ pre e post, es = pre ++ e :: post ∧ o = endOf off prior pre ∧ e.key = k := by
  induction es generalizing off prior with
  | nil => simp [placed] at h
  | cons e es ih =>
    rcases List.mem_cons.1 h with h | h
    · obtain ⟨rfl, rfl⟩ := Prod.mk.inj h
      exact ⟨[], e, es, rfl, rfl, rfl⟩
    · obtain ⟨pre, e', post, rfl, ho, hk⟩ := ih h
      exact ⟨e :: pre, e', post, rfl, ho, hk⟩

theorem recBefore_placed {key : List UInt8} {off : Nat} {prior : List UInt8} {es : List Entry} {p : Bool}
    (h : ∀ e ∈ es, e.before key = p) {r : Nat × Option (List UInt8)} (hr : r ∈ placed off prior es) : recBefore key r = p := by
  obtain ⟨pre, e, post, rfl, -, hk⟩ := entry_of_placed (o := r.1) (k := r.2) hr
  rw [← h e (by simp), recBefore, Entry.before, hk]

section Position

variable {b : GdsBlk} {key : List UInt8} {pre post : List Entry}

/-- The records on both sides of a search key. -/
theorem records_eq (h : WfBlk b (pre ++ post)) (hpre : ∀ e ∈ pre, e.before key = true)
    (hpost : ∀ e, post.head? = some e → e.before key = false) : lastBefore b key = (placed blkHdrSize [] pre).getLast? ∧
      firstNotBefore b key = post.head?.map fun e => (endOf blkHdrSize [] pre, e.key) := by
  have hall : ∀ r ∈ placed blkHdrSize [] pre, recBefore key r = true := fun r hr => recBefore_placed hpre hr
  rw [lastBefore, firstNotBefore, decompress_eq_placed h.laid h.contents (Nat.le_add_right _ _), placed_append,
    List.takeWhile_append_of_pos hall, List.dropWhile_append_of_pos hall]
  cases post with
  | nil => simp [placed]
  | cons e post =>
    have hnot : recBefore key (endOf blkHdrSize [] pre, e.key) = false := hpost e rfl
    simp [placed, hnot]

end Position

/-! ## The record at the search key -/

section Curr

variable {env : SrchEnv} {b : GdsBlk} {key k : List UInt8} {pre post : List Entry} {e : Entry} {prev : SrchRec}

/-- `gvcst_expand_curr_key` behind a search: the key of the record at it. -/
theorem gvcstExpandCurrKey_entries {level0 : Bool} {idSz : Nat} (hl : Laid b blkHdrSize [] (pre ++ e :: post))
    (hc : Contents level0 idSz [] (pre ++ e :: post)) (hk : e.key = some k) (hstart : k.head? ≠ some keyDelimiter)
    (hfit : k.length < env.altTop) (hkey : isKey key = true) (hpre : lastKey [] pre ≤ key) (hle : key ≤ k) :
    gvcstExpandCurrKey env b ⟨prev, ⟨endOf blkHdrSize [] pre, lcp k key⟩⟩ key = .ok k := by
  have hkb : e.keyBytes = k := by simp [Entry.keyBytes, hk]
  have hc' := hc.append (by simp)
  simp only [Contents, hk] at hc'
  obtain ⟨hik, hpk, -, -⟩ := hc'
  have hl' := hl.append
  have hcmpc : b.evalCmpc (endOf blkHdrSize [] pre) = lcp (lastKey [] pre) k := by
    have := hl'.2.1
    rwa [Entry.cmpc, hkb] at this
  have hdata : b.HasBytes (endOf blkHdrSize [] pre + recHdrSize) (k.drop (lcp (lastKey [] pre) k) ++ e.val) := by
    have h := hl'.2.2.1
    rwa [Entry.data, Entry.cmpc, hkb] at h
  have hc2 := cmpc_add_two_le (hc.lastKey_isKey (by simp) (fun h => absurd rfl h)) hik hpk
  have hmatch : lcp (lastKey [] pre) k ≤ lcp k key := by
    rw [lcp_of_le_of_le hpre hle, lcp_comm k key]
    exact min_le_right _ _
  simp only [gvcstExpandCurrKey, hcmpc]
  rw [if_neg (not_lt.2 hmatch)]
  by_cases heq : k = key
  · subst heq
    obtain ⟨u, hu⟩ := isKey_ends hik
    have hself : lcp k k = k.length := by simp
    rw [if_pos hself, hself, if_neg (not_le.2 hfit)]
    have hlen : k.length - 2 = u.length := by simp [hu]
    rw [hlen, show k.take u.length ++ [keyDelimiter, keyDelimiter] = k by rw [hu]; simp]
    exact expandedKey_of_isKey hik hstart
  · have hne : lcp k key ≠ key.length := by
      rw [lcp_comm]
      exact (lcp_lt_length hkey hik (Ne.symm heq)).ne
    obtain ⟨hm, hcopy⟩ := copyDelims_shared hik hcmpc hdata hc2 hmatch (lcp_lt_length hik hkey heq) hfit.le
    rw [takenMatch, hcmpc] at hm hcopy
    rw [if_neg hne, if_neg (by omega), hcopy]
    exact expandedKey_of_isKey hik hstart

end Curr

end Gtm

/-!
## Expanded keys

`gvcst_expand_key` finds the key of every record that has one. Behind any search, with a clue or from the root, the keys of the records
on both sides of the search key are those that decompression from the start of the block finds, whether they are expanded from the
search key or by the search itself.
-/

namespace Gtm

open CommonPrefix

namespace KeyExpansionAux

section Block

variable {d : KeyEnv} {env : SrchEnv} {b : GdsBlk} {es : List Entry} {key : List UInt8}

/-- A block of the database holds entries whose keys fit. -/
theorem entries_of_holds (hb : d.Holds b) (henv : d.Open env) :
    b.bsiz ≤ env.blkSize ∧ ∃ es, WfBlk b es ∧ (∀ e ∈ es, ∀ k, e.key = some k → k.head? ≠ some keyDelimiter) ∧
      ∀ e ∈ es, e.keyBytes.length < env.altTop := by
  obtain ⟨cenv, hsize, hcert⟩ := hb.cert
  obtain ⟨hle, es, h⟩ := certBlk_wf hcert
  have hmem : ∀ e ∈ es, ∃ o, (o, e.key) ∈ decompress b b.bsiz blkHdrSize [] := fun e he => by
    rw [decompress_eq_placed h.laid h.contents (Nat.le_add_right _ _)]
    exact mem_placed _ _ he
  refine ⟨by rw [henv.blkSize, ← hsize]; exact hle, es, h, fun e he k hk => ?_, fun e he => ?_⟩
  · obtain ⟨o, ho⟩ := hmem e he
    exact hb.name (hk ▸ ho)
  · obtain ⟨o, ho⟩ := hmem e he
    have hroom := henv.room
    cases hk : e.key with
    | none => simp [Entry.keyBytes, hk, Nat.zero_lt_of_lt hroom]
    | some k =>
      rw [Entry.keyBytes, hk]
      exact (hb.size (hk ▸ ho)).trans_lt hroom

theorem expandKey_of_holds (hb : d.Holds b) (henv : d.Open env) {off : Nat} {k : List UInt8}
    (hmem : (off, some k) ∈ decompress b b.bsiz blkHdrSize []) : gvcstExpandKey env b off = .ok k := by
  obtain ⟨hsize, es, h, hname, hfit⟩ := entries_of_holds hb henv
  rw [decompress_eq_placed h.laid h.contents (Nat.le_add_right _ _)] at hmem
  obtain ⟨pre, e, post, rfl, rfl, hk⟩ := entry_of_placed hmem
  exact gvcstExpandKey_entries h.laid h.contents hk hsize (hname e (by simp) k hk) fun e' he' =>
    (hfit e' (by simp only [List.mem_append, List.mem_cons] at he' ⊢; tauto)).le

/-- The positions of a search by full keys are enough to expand both keys. -/
theorem expanded_naive (hb : d.Holds b) (henv : d.Open env) (hkey : isKey key = true) : Expanded env b (naiveSearch b key) key := by
  obtain ⟨hsize, es, h, hname, hfit⟩ := entries_of_holds hb henv
  obtain ⟨pre, post, rfl, hpre, hpost, hprev, hcurr⟩ := naiveSearch_split h key
  obtain ⟨hlast, hfirst⟩ := records_eq h hpre hpost
  constructor
  · intro off k hk
    rw [hfirst] at hk
    obtain ⟨e, rest, rfl⟩ : ∃ e rest, post = e :: rest := by
      cases post with
      | nil => cases hk
      | cons e rest => exact ⟨e, rest, rfl⟩
    have hek : e.key = some k := (Prod.mk.inj (Option.some.inj hk)).2
    have hle : key ≤ k := Entry.not_before_iff.1 (hpost e rfl) k hek
    have hprior : lastKey [] pre ≤ key := by
      rcases List.eq_nil_or_concat pre with rfl | ⟨pre', e', rfl⟩
      · exact not_lt.1 (List.not_lt_nil key)
      · rw [List.concat_eq_append] at hpre ⊢
        obtain ⟨k', hk', hlt⟩ := Entry.before_iff.1 (hpre e' (by simp))
        rw [lastKey_append, lastKey, Entry.keyBytes, hk']
        exact hlt.le
    have hfitk : k.length < env.altTop := by simpa [Entry.keyBytes, hek] using hfit e (by simp)
    have hstat : naiveSearch b key = ⟨(naiveSearch b key).prevRec, ⟨endOf blkHdrSize [] pre, lcp k key⟩⟩ := by
      rw [show (⟨endOf blkHdrSize [] pre, lcp k key⟩ : SrchRec) = (naiveSearch b key).currRec by rw [hcurr, currMatch, hek]; rfl]
    rw [hstat]
    exact gvcstExpandCurrKey_entries h.laid h.contents hek (hname e (by simp) k hek) hfitk hkey hprior hle
  · intro off k hk
    rw [hlast] at hk
    rcases List.eq_nil_or_concat pre with rfl | ⟨pre', e, rfl⟩
    · simp [placed] at hk
    · rw [List.concat_eq_append] at *
      rw [placed_append] at hk
      have hek : e.key = some k := by simpa [placed] using congrArg (Option.map Prod.snd) hk
      have hkb : e.keyBytes = k := by simp [Entry.keyBytes, hek]
      obtain ⟨k', hk', hlt⟩ := Entry.before_iff.1 (hpre e (by simp))
      rw [hek] at hk'
      obtain rfl := Option.some.inj hk'
      have hstat : naiveSearch b key = ⟨⟨endOf blkHdrSize [] pre', lcp k key⟩, (naiveSearch b key).currRec⟩ := by
        rw [show (⟨endOf blkHdrSize [] pre', lcp k key⟩ : SrchRec) = (naiveSearch b key).prevRec by
          rw [hprev, lastKey_append, lastKey, lastKey, hkb]
          simp [lastOff]]
      rw [hstat]
      have hsplit : pre' ++ [e] ++ post = pre' ++ e :: post := by simp
      refine gvcstExpandPrevKey_entries (hsplit ▸ h.laid) (hsplit ▸ h.contents) hek hsize (hname e (by simp) k hek)
        (fun e' he' => (hfit e' ?_).le) hkey hlt
      exact List.mem_append_left _ he'

end Block

section Run

variable {d : KeyEnv} {env : SrchEnv} {usable ownHist : Bool} {leaf : LeafRead} {target : Option GvClue} {key altkey : List UInt8}

/-- A clue says what a search of its leaf by full keys finds. -/
structure Sound (d : KeyEnv) (c : GvClue) : Prop where
  holds : d.Holds c.blk
  levl : c.blk.levl = 0
  key : isKey c.clue = true
  stat : c.stat = naiveSearch c.blk c.clue
  prev : c.prevKey = none ∨ c.prevKey = some (naivePrevKey c.blk c.clue)

/-- A search has found what a search of its leaf by full keys finds, and leaves a sound clue, if any. -/
structure Found (d : KeyEnv) (env : SrchEnv) (key : List UInt8) (r : GvSearch) : Prop where
  normal : r.sc = .normal
  holds : d.Holds r.blk
  levl : r.blk.levl = 0
  stat : r.stat = naiveSearch r.blk key
  altkey : env.expandPrevKey = true → r.altkey = naivePrevKey r.blk key
  target : ∀ c, r.target = some c → Sound d c

/-- The search of a leaf from its start. -/
theorem searchBlk_leaf {b : GdsBlk} (hb : d.Holds b) (hlevl : b.levl = 0) (henv : d.Open env) (hkey : isKey key = true) (stat : SrchStat)
    (altkey : List UInt8) :
    gvcstSearchBlk env b key stat altkey =
      ⟨.normal, naiveSearch b key, if env.expandPrevKey = true then naivePrevKey b key else altkey⟩ := by
  obtain ⟨hsize, es, h, -, hfit⟩ := entries_of_holds hb henv
  have hnaive := naiveSearch_eq h key
  rw [gvcstSearchBlk_wf h hsize hkey (fun _ e he => (hfit e he).le), ← hnaive]
  simp only [hlevl, true_and]

theorem gvcstSearchRoot_found (henv : d.Open env) (hleaf : d.Holds leaf.blk) (hlevl : leaf.blk.levl = 0) (hkey : isKey key = true)
    (htarget : ∀ c, target = some c → Sound d c) : Found d env key (gvcstSearchRoot env ownHist leaf target key altkey) := by
  rw [gvcstSearchRoot, searchBlk_leaf hleaf hlevl henv hkey]
  have halt : env.expandPrevKey = true → (if env.expandPrevKey = true then naivePrevKey leaf.blk key else altkey) =
      naivePrevKey leaf.blk key := fun he => if_pos he
  by_cases hown : ownHist = true
  · rw [if_pos (.inr hown)]
    exact ⟨rfl, hleaf, hlevl, rfl, halt, htarget⟩
  · rw [if_neg (by simp [hown])]
    generalize hstat : naiveSearch leaf.blk key = st
    by_cases hfirst : st.currRec.offset < blkHdrSize ∨ (st.currRec.offset = blkHdrSize ∧ st.currRec.mtch < key.length)
    · rw [if_pos hfirst]
      exact ⟨rfl, hleaf, hlevl, hstat.symm, halt, nofun⟩
    · rw [if_neg hfirst]
      refine ⟨rfl, hleaf, hlevl, hstat.symm, halt, fun c hc => ?_⟩
      cases hc
      refine ⟨hleaf, hlevl, hkey, hstat.symm, ?_⟩
      cases he : env.expandPrevKey with
      | false => exact .inl rfl
      | true => exact .inr rfl

/-- A search that has used the clue. -/
theorem Sound.moved_found {c : GvClue} (hc : Sound d c) (hkey : isKey key = true) {out : SrchOut}
    (hout : out = ⟨.normal, naiveSearch c.blk key, if env.expandPrevKey = true then naivePrevKey c.blk key else altkey⟩) :
    Found d env key ⟨.normal, c.blk, out.stat, out.altkey, some (if ownHist then c else c.moved env key out)⟩ := by
  subst hout
  refine ⟨rfl, hc.holds, hc.levl, rfl, fun he => if_pos he, fun c' hc' => ?_⟩
  cases hc'
  split
  · exact hc
  · refine ⟨hc.holds, hc.levl, hkey, rfl, ?_⟩
    rw [GvClue.moved]
    cases he : env.expandPrevKey with
    | false => exact .inl rfl
    | true => exact .inr rfl

/-- The key of the record before is expanded where there is one. -/
theorem Sound.expandPrev {c : GvClue} (hc : Sound d c) (henv : d.Open env) :
    gvcstExpandPrevKey env c.blk c.stat c.clue = .ok (naivePrevKey c.blk c.clue) ∨
      gvcstExpandPrevKey env c.blk c.stat c.clue = .error .badoffset := by
  have hexp := expanded_naive hc.holds henv hc.key
  rw [hc.stat]
  cases hlast : lastBefore c.blk c.clue with
  | none =>
    have hprev : (naiveSearch c.blk c.clue).prevRec.offset = 0 := by simp [naiveSearch, hlast]
    exact .inr (by rw [gvcstExpandPrevKey, hprev]; rfl)
  | some r =>
    obtain ⟨off, k⟩ := r
    cases k with
    | none =>
      -- the star-key record is not before a key
      have hmem := List.mem_of_getLast? hlast
      have hbefore := List.all_eq_true.1 List.all_takeWhile _ hmem
      simp [recBefore] at hbefore
    | some k => exact .inl (by rw [hexp.prev hlast]; simp [naivePrevKey, hlast])

/-- What one search finds and leaves. -/
theorem gvcstSearch_found (henv : d.Open env) (hleaf : d.Holds leaf.blk) (hlevl : leaf.blk.levl = 0) (hkey : isKey key = true)
    (htarget : ∀ c, target = some c → Sound d c) : Found d env key (gvcstSearch env usable ownHist leaf target key altkey) := by
  have hroot : Found d env key (gvcstSearchRoot env ownHist leaf target key altkey) := gvcstSearchRoot_found henv hleaf hlevl hkey htarget
  cases target with
  | none => exact hroot
  | some c =>
    have hc := htarget c rfl
    obtain ⟨hsize, es, h, -, hfit⟩ := entries_of_holds hc.holds henv
    simp only [gvcstSearch]
    split
    · exact hroot
    split
    · next hlt =>
      split
      · obtain ⟨-, -, hor⟩ := gvcstSearchTail_wf h hc.levl hsize (fun _ e he => (hfit e he).le) hc.key hkey hlt altkey hc.prev
        rw [← hc.stat] at hor
        split
        · next hsc =>
          rcases hor with hout | hfail
          · exact hc.moved_found hkey hout
          · rw [hsc] at hfail
            cases hfail
        · exact hroot
      · exact hroot
    split
    · split
      · have hout := searchBlk_leaf hc.holds hc.levl henv hkey c.stat altkey
        rw [hout]
        exact hc.moved_found hkey rfl
      · exact hroot
    · next hge hle =>
      obtain rfl : c.clue = key := le_antisymm (not_lt.1 hle) (not_lt.1 hge)
      split
      · next hexp => exact ⟨rfl, hc.holds, hc.levl, hc.stat, fun he => by simp [hexp] at he, htarget⟩
      · cases hp : c.prevKey with
        | some k =>
          have hk : k = naivePrevKey c.blk c.clue := by simpa [hp] using hc.prev
          exact ⟨rfl, hc.holds, hc.levl, hc.stat, fun _ => hk, htarget⟩
        | none =>
          rcases hc.expandPrev henv with hok | herr
          · simp only [hok]
            refine ⟨rfl, hc.holds, hc.levl, hc.stat, fun _ => rfl, fun c' hc' => ?_⟩
            cases hc'
            exact ⟨hc.holds, hc.levl, hc.key, hc.stat, .inr rfl⟩
          · simp only [herr]
            exact hroot

/-- Every clue that searches leave is sound. -/
theorem sound_of_left (h : d.Left target) : ∀ c, target = some c → Sound d c := by
  induction h with
  | none => exact nofun
  | search _ env henv usable ownHist leaf hleaf hlevl key altkey hkey ih => exact (gvcstSearch_found henv hleaf hlevl hkey ih).target

end Run

end KeyExpansionAux

open KeyExpansionAux

/-- `gvcst_expand_key` finds the key of every record. Behind a search of a block, and behind any search that follows others, both
keys at its position are expanded right, from the search key or while searching. -/
theorem gvcstSearch_expands (d : KeyEnv) :
    (∀ env b, d.Open env → d.Holds b → ∀ off k, (off, some k) ∈ decompress b b.bsiz blkHdrSize [] → gvcstExpandKey env b off = .ok k) ∧
    (∀ env b key stat altkey, d.Open env → d.Holds b → isKey key = true →
      let out := gvcstSearchBlk env b key stat altkey
      Expanded env b out.stat key ∧ (b.levl = 0 → env.expandPrevKey = true → out.altkey = naivePrevKey b key)) ∧
    ∀ target, d.Left target → ∀ env usable ownHist leaf key altkey, d.Open env → d.Holds leaf.blk → leaf.blk.levl = 0 →
      isKey key = true →
      let r := gvcstSearch env usable ownHist leaf target key altkey
      r.sc = .normal ∧ Expanded env r.blk r.stat key ∧ (env.expandPrevKey = true → r.altkey = naivePrevKey r.blk key) := by
  refine ⟨fun env b henv hb off k => expandKey_of_holds hb henv, fun env b key stat altkey henv hb hkey => ?_,
    fun target htarget env usable ownHist leaf key altkey henv hleaf hlevl hkey => ?_⟩
  · obtain ⟨hsize, es, h, -, hfit⟩ := entries_of_holds hb henv
    have hnaive := naiveSearch_eq h key
    have hout := gvcstSearchBlk_wf h hsize hkey (fun _ e he => (hfit e he).le) stat altkey
    rw [← hnaive] at hout
    rw [hout]
    exact ⟨expanded_naive hb henv hkey, fun hlevl hexp => if_pos ⟨hlevl, hexp⟩⟩
  · have hfound : Found d env key (gvcstSearch env usable ownHist leaf target key altkey) :=
      gvcstSearch_found henv hleaf hlevl hkey (sound_of_left htarget)
    refine ⟨hfound.normal, ?_, hfound.altkey⟩
    rw [hfound.stat]
    exact expanded_naive hfound.holds henv hkey

/-- The clue behind a search for `^A(1)`. -/
def clueOfA : Option GvClue :=
  (gvcstSearch (smallEnv true) false false ⟨leafOfA, [65, 0, 0], [66, 0, 0]⟩ none [65, 0, 191, 17, 0, 0] []).target

theorem gvcstSearch_expands_leaf :
    gvcstExpandKey (smallEnv true) leafOfA 24 = .ok [65, 0, 191, 17, 0, 0] ∧
      (gvcstSearchBlk (smallEnv true) leafOfA [65, 0, 191, 33, 0, 0] ⟨⟨0, 0⟩, ⟨0, 0⟩⟩ []).altkey = [65, 0, 191, 17, 0, 0] ∧
      (gvcstSearch (smallEnv true) true false ⟨leafOfA, [65, 0, 0], [66, 0, 0]⟩ clueOfA [65, 0, 191, 33, 0, 0] []).altkey =
        [65, 0, 191, 17, 0, 0] := by
  have hrecs : decompress leafOfA leafOfA.bsiz blkHdrSize [] = [(16, some [65, 0, 0]), (24, some [65, 0, 191, 17, 0, 0])] := by
    decide
  have hopen : (KeyEnv.mk 512 32).Open (smallEnv true) := ⟨rfl, by decide⟩
  have hholds : (KeyEnv.mk 512 32).Holds leafOfA := by
    refine ⟨⟨⟨512, 512, 101, false, false, .none, 3, 2⟩, rfl, by decide⟩, fun h => ?_, fun h => ?_⟩
    all_goals
      rw [hrecs] at h
      simp only [List.mem_cons, Prod.mk.injEq, Option.some.injEq, List.not_mem_nil, or_false] at h
      rcases h with ⟨-, rfl⟩ | ⟨-, rfl⟩ <;> decide
  obtain ⟨hkey, hblk, hrun⟩ := gvcstSearch_expands ⟨512, 32⟩
  have hsearch := hblk (smallEnv true) leafOfA [65, 0, 191, 33, 0, 0] ⟨⟨0, 0⟩, ⟨0, 0⟩⟩ [] hopen hholds (by decide)
  have hclue : (KeyEnv.mk 512 32).Left clueOfA := .search .none _ hopen _ _ _ hholds rfl _ _ (by decide)
  have hresumed := hrun clueOfA hclue (smallEnv true) true false ⟨leafOfA, [65, 0, 0], [66, 0, 0]⟩ [65, 0, 191, 33, 0, 0] [] hopen
    hholds rfl (by decide)
  refine ⟨hkey _ _ hopen hholds _ _ (by rw [hrecs]; simp), ?_, ?_⟩
  · rw [hsearch.2 rfl rfl]
    decide
  · rw [hresumed.2.2 rfl]
    decide

end Gtm
