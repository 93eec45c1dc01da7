import Gtm.Lemmas.BlockEntries

/-!
# The search over the entries of a block

The search of a block compares compression counts with the match count and decompresses nothing. Over the entries the block holds,
it goes the way of a search by full keys.
-/

namespace Gtm

open CommonPrefix LexOrder

/-! ## The search by full keys -/

/-- The position among entries by full keys: the record before and the record at it, and the key of the record before. -/
def searchEntries (key : List UInt8) : SrchRec → List UInt8 → Nat → List Entry → SrchStat × List UInt8
  | prev, prior, off, [] => (⟨prev, ⟨off, 0⟩⟩, prior)
  | prev, prior, off, e :: es =>
    match e.key with
    | none => (⟨prev, ⟨off, 0⟩⟩, prior)
    | some k =>
      if k < key then searchEntries key ⟨off, lcp k key⟩ k (off + e.size prior) es else (⟨prev, ⟨off, lcp k key⟩⟩, prior)

/-- The records with their offsets and keys. -/
def placed : Nat → List UInt8 → List Entry → List (Nat × Option (List UInt8))
  | _, _, [] => []
  | off, prior, e :: es => (off, e.key) :: placed (off + e.size prior) e.keyBytes es

variable {es : List Entry} {k prior prevKey : List UInt8} {b : GdsBlk} {off fuel n : Nat} {env : SrchEnv}

theorem mem_placed (off : Nat) (prior : List UInt8) {e : Entry} (he : e ∈ es) : ∃ o, (o, e.key) ∈ placed off prior es := by
  induction es generalizing off prior with
  | nil => simp at he
  | cons e' es ih =>
    rcases List.mem_cons.1 he with rfl | he
    · exact ⟨off, by simp [placed]⟩
    · obtain ⟨o, ho⟩ := ih (off + e'.size prior) e'.keyBytes he
      exact ⟨o, by simp [placed, ho]⟩

theorem Entry.recHdrSize_le_size (prior : List UInt8) (e : Entry) : recHdrSize ≤ e.size prior := Nat.le_add_right _ _

theorem Entry.data_of_key {e : Entry} (hk : e.key = some k) : prior.take (e.cmpc prior) ++ e.data prior = k ++ e.val := by
  have htake : prior.take (lcp prior k) = k.take (lcp prior k) := take_eq_of_le_lcp le_rfl
  rw [Entry.data, Entry.cmpc, Entry.keyBytes, hk, Option.getD_some, htake, ← List.append_assoc, List.take_append_drop]

theorem Laid.off_le (h : Laid b off prior es) : off ≤ b.bsiz := by
  cases es with
  | nil => exact le_of_eq h
  | cons e es => exact le_trans (Nat.le_add_right _ _) h.2.2.2.1

theorem Laid.off_lt (h : Laid b off prior es) (hes : es ≠ []) : off < b.bsiz := by
  cases es with
  | nil => exact absurd rfl hes
  | cons e es =>
    have hsize := e.recHdrSize_le_size prior
    have hle := h.2.2.2.1
    rw [recHdrSize] at hsize
    omega

/-- Decompression finds the keys of the entries. -/
theorem decompress_eq_placed (hl : Laid b off prior es)
    (hc : Contents (decide (b.levl = 0)) (sizeofBlkId b.longBlkId) prior es) (hfuel : b.bsiz ≤ fuel + off) :
    decompress b fuel off prior = placed off prior es := by
  induction es generalizing fuel off prior with
  | nil =>
    cases fuel with
    | zero => rfl
    | succ fuel =>
      have hoff : off = b.bsiz := hl
      simp [decompress, placed, hoff]
  | cons e es ih =>
    have hlt := hl.off_lt (by simp)
    obtain ⟨hrsiz, hcmpc, hbytes, -, hrest⟩ := hl
    have hsize := e.recHdrSize_le_size prior
    obtain ⟨fuel, rfl⟩ : ∃ n, fuel = n + 1 := ⟨fuel - 1, by omega⟩
    rw [decompress, if_neg (by omega), placed, hrsiz]
    cases hk : e.key with
    | none =>
      simp only [Contents, hk] at hc
      obtain ⟨hlevl, rfl, -⟩ := hc
      have hend : off + e.size prior = b.bsiz := hrest
      rw [if_pos ⟨by simpa using hlevl, hend⟩]
      rfl
    | some k =>
      simp only [Contents, hk] at hc
      obtain ⟨hik, -, -, hc⟩ := hc
      have hnot : ¬(b.levl ≠ 0 ∧ off + e.size prior = b.bsiz) := by
        rintro ⟨hlevl, hend⟩
        cases es with
        | nil => simp [Contents, hlevl] at hc
        | cons e' es' =>
          have := hrest.off_lt (by simp)
          omega
      have hkey : takeKey (prior.take (b.evalCmpc off) ++ b.bytes (off + recHdrSize) (e.size prior - recHdrSize)) = k := by
        rw [hcmpc, show e.size prior - recHdrSize = (e.data prior).length by simp [Entry.size],
          show b.bytes (off + recHdrSize) (e.data prior).length = e.data prior from hbytes, Entry.data_of_key hk]
        exact takeKey_append hik _
      have hkb : e.keyBytes = k := by simp [Entry.keyBytes, hk]
      rw [hkb] at hrest
      rw [recHdrSize] at hsize
      rw [if_neg hnot, hkey, hkb]
      exact congrArg ((off, some k) :: ·) (ih hrest hc (by omega))

theorem getD_getLast?_cons {α β : Type} (f : α → β) (a : α) (l : List α) (d : β) :
    ((a :: l).getLast?.map f).getD d = (l.getLast?.map f).getD (f a) := by
  rw [List.getLast?_cons]
  cases l.getLast? <;> rfl

/-- The search by full keys stops where the records stop being before the search key. -/
theorem searchEntries_eq (hl : Laid b off prior es) (key : List UInt8) (prev : SrchRec) : searchEntries key prev prior off es =
      (⟨(((placed off prior es).takeWhile (recBefore key)).getLast?.map (recStat key)).getD prev,
        (((placed off prior es).dropWhile (recBefore key)).head?.map (recStat key)).getD ⟨b.bsiz, 0⟩⟩,
       (((placed off prior es).takeWhile (recBefore key)).getLast?.map fun r => r.2.getD []).getD prior) := by
  induction es generalizing prev prior off with
  | nil =>
    have hoff : off = b.bsiz := hl
    simp [placed, searchEntries, hoff]
  | cons e es ih =>
    obtain ⟨-, -, -, -, hrest⟩ := hl
    cases hk : e.key with
    | none => simp [placed, searchEntries, hk, recBefore, recStat]
    | some k =>
      have hkb : e.keyBytes = k := by simp [Entry.keyBytes, hk]
      rw [hkb] at hrest
      by_cases hlt : k < key
      · have hbefore : recBefore key (off, some k) = true := by simpa [recBefore] using hlt
        simp only [searchEntries, placed, hk, hkb, if_pos hlt, ih hrest, List.takeWhile_cons_of_pos hbefore,
          List.dropWhile_cons_of_pos hbefore, getD_getLast?_cons]
        rfl
      · simp [placed, searchEntries, hk, recBefore, hlt, recStat]

/-- The search that decompresses is the search by full keys of the entries. -/
theorem naiveSearch_eq (h : WfBlk b es) (key : List UInt8) :
    (naiveSearch b key, naivePrevKey b key) = searchEntries key ⟨0, 0⟩ [] blkHdrSize es := by
  rw [searchEntries_eq h.laid, naiveSearch, naivePrevKey, lastBefore, firstNotBefore,
    decompress_eq_placed h.laid h.contents (Nat.le_add_right _ _)]
  cases ((placed blkHdrSize [] es).takeWhile (recBefore key)).getLast? <;> rfl

/-! ## Expanded keys -/

theorem isKey_drop (hk : isKey k = true) (hn : n + 2 ≤ k.length) : isKey (k.drop n) = true := by
  induction n generalizing k with
  | zero => exact hk
  | succ n ih =>
    match k, hk with
    | a :: c :: rest, hk =>
      rcases isKey_cons_cons.1 hk with ⟨-, -, rfl⟩ | ⟨-, hk'⟩
      · simp at hn
      · exact ih hk' (by simpa using hn)

/-- A key behind another is not a delimiter where the two part, so two bytes and more are left of it there. -/
theorem lcp_add_two_le (hk : isKey k = true) (hp : ¬prior <+: k) (hlt : prior < k) : lcp prior k + 3 ≤ k.length := by
  obtain ⟨p, x, y, u, v, rfl, rfl, hxy⟩ := split_of_lt hlt hp
  rw [lcp_of_split p u v hxy.ne]
  have hy : y ≠ keyDelimiter := by
    rintro rfl
    exact absurd hxy (by simp [keyDelimiter, UInt8.lt_iff_toNat_lt])
  obtain ⟨w, hw⟩ := isKey_ends hk
  by_contra hlen
  simp only [List.length_append, List.length_cons] at hlen
  have hget := congrArg (fun l => l[p.length]?) hw
  have hwl := congrArg List.length hw
  simp only [List.length_append, List.length_cons, List.length_nil] at hwl
  simp only [List.getElem?_append_right (le_refl _), Nat.sub_self, List.getElem?_cons_zero] at hget
  rw [List.getElem?_append_right (by omega)] at hget
  rcases (show p.length - w.length = 0 ∨ p.length - w.length = 1 by omega) with h | h <;>
    · rw [h] at hget
      exact hy (by simpa using hget)

/-- The state of an expansion stands for a key: its first bytes are in `gv_altkey`, the others where the pointer points, inside
the block if it points there. -/
structure Expands (b : GdsBlk) (prevKey : List UInt8) (x : Altkey) (k : List UInt8) : Prop where
  le : x.cmpLen ≤ k.length
  base : x.base.take x.cmpLen = k.take x.cmpLen
  rest : ∀ p, x.unCmp = some p → x.cmpLen + 2 ≤ k.length ∧ (List.range (k.length - x.cmpLen)).map (p.byte b prevKey) = k.drop x.cmpLen
  inBlk : ∀ off, x.unCmp = some (.blk off) → off + (k.length - x.cmpLen) ≤ b.bsiz
  inKey : ∀ off, x.unCmp = some (.key off) → k = prevKey
  none : x.unCmp = none → k = []

theorem KeyPtr.map_take {p : KeyPtr} {c : Nat} (h : (List.range (k.length - c)).map (p.byte b prevKey) = k.drop c) (hn : n ≤ k.length - c) :
    (List.range n).map (p.byte b prevKey) = (k.drop c).take n := by
  rw [← h, ← List.map_take, List.take_range, Nat.min_eq_left hn]

/-- The expansion of a key moves on to the next record. -/
theorem expandStep_next {val : List UInt8} {x : Altkey}
    (hx : Expands b prevKey x prior) (hc : lcp prior k + 2 ≤ k.length) (htop : k.length ≤ env.altTop)
    (hbytes : b.HasBytes (off + recHdrSize) (k.drop (lcp prior k) ++ val)) (hin : off + recHdrSize + (k.length - lcp prior k) ≤ b.bsiz) :
    ∃ x', expandStep env b prevKey off (lcp prior k) x = some x' ∧ Expands b prevKey x' k := by
  have hle : lcp prior k ≤ k.length := lcp_le_right _ _
  have htake : prior.take (lcp prior k) = k.take (lcp prior k) := take_eq_of_le_lcp le_rfl
  have hrest : (List.range (k.length - lcp prior k)).map (KeyPtr.byte b prevKey (.blk (off + recHdrSize))) = k.drop (lcp prior k) := by
    have h := (GdsBlk.hasBytes_append.1 hbytes).1
    rwa [GdsBlk.HasBytes, List.length_drop] at h
  -- what stands in `gv_altkey` is all that changes
  have hmk : ∀ base : List UInt8, base.take (lcp prior k) = k.take (lcp prior k) →
      Expands b prevKey ⟨base, lcp prior k, some (.blk (off + recHdrSize))⟩ k := by
    intro base hbase
    refine ⟨hle, hbase, ?_, ?_, (by intros; rename_i h; cases h), (by intros; rename_i h; cases h)⟩
    · intro p hp
      cases hp
      exact ⟨hc, hrest⟩
    · intro off' hoff
      cases hoff
      exact hin
  simp only [expandStep]
  split
  · next hlt =>
    cases hu : x.unCmp with
    | none => simp [hx.none hu] at hlt
    | some p =>
      obtain ⟨-, hmap⟩ := hx.rest p hu
      have hlcp := lcp_le_left prior k
      simp only
      rw [if_neg (by omega)]
      refine ⟨_, rfl, hmk _ ?_⟩
      rw [hx.base, KeyPtr.map_take hmap (by omega), ← htake]
      have happ : prior.take x.cmpLen ++ (prior.drop x.cmpLen).take (lcp prior k - x.cmpLen) = prior.take (lcp prior k) := by
        rw [← List.take_add, Nat.add_sub_cancel' hlt.le]
      rw [happ, List.take_take, Nat.min_self]
  · next hge =>
    refine ⟨_, rfl, hmk _ ?_⟩
    have hb := congrArg (List.take (lcp prior k)) hx.base
    rw [List.take_take, List.take_take, Nat.min_eq_left (not_lt.1 hge)] at hb
    rw [hb, htake]

/-- The scan finds the end of a key. -/
theorem scanDelims_key {t : List UInt8} {pTop p : KeyPtr} {i : Nat} (ht : isKey t = true)
    (hbytes : (List.range t.length).map (fun j => p.byte b prevKey (i + j)) = t)
    (hreach : ∀ j, j + 2 ≤ t.length → p.reaches env (i + j) pTop = false) (hfuel : t.length ≤ fuel) :
    scanDelims env b prevKey pTop p fuel i = some (i + t.length) := by
  induction t generalizing fuel i with
  | nil => simp [isKey] at ht
  | cons a t ih =>
    cases t with
    | nil => simp [isKey] at ht
    | cons c rest =>
      obtain ⟨fuel, rfl⟩ : ∃ n, fuel = n + 1 := ⟨fuel - 1, by simp at hfuel; omega⟩
      rw [List.length_cons, List.range_succ_eq_map, List.map_cons, List.map_map] at hbytes
      obtain ⟨ha, hrest⟩ := List.cons.inj hbytes
      have hrest' : (List.range (c :: rest).length).map (fun j => p.byte b prevKey (i + 1 + j)) = c :: rest := by
        refine Eq.trans (List.map_congr_left fun j _ => ?_) hrest
        rw [Function.comp_apply, Nat.add_assoc i 1 j, Nat.add_comm 1 j]
      have hc : p.byte b prevKey (i + 1) = c := by
        rw [List.length_cons, List.range_succ_eq_map] at hrest'
        simpa using (List.cons.inj hrest').1
      have ha' : p.byte b prevKey i = a := by simpa using ha
      have h0 : p.reaches env i pTop = false := by simpa using hreach 0 (by simp)
      rw [scanDelims, h0]
      simp only [Bool.false_eq_true, if_false, ha', hc]
      rcases isKey_cons_cons.1 ht with ⟨rfl, rfl, rfl⟩ | ⟨hne, ht'⟩
      · simp
      · rw [if_neg hne, ih ht' hrest' ?_ (by simpa using hfuel)]
        · simp only [List.length_cons]
          congr 1
          omega
        · intro j hj
          have := hreach (j + 1) (by simp only [List.length_cons] at hj ⊢; omega)
          rwa [show i + (j + 1) = i + 1 + j by omega] at this

/-- The end of the expansion leaves the key in `gv_altkey`. -/
theorem expandFinish_key {x : Altkey} {pTop : KeyPtr}
    (hx : Expands b prevKey x k) (hk : k ≠ [] → isKey k = true) (htop : k.length ≤ env.altTop)
    (hreach : ∀ p, x.unCmp = some p → ∀ j, x.cmpLen + j + 2 ≤ k.length → p.reaches env j pTop = false)
    (hfuel : x.unCmp ≠ none → k.length - x.cmpLen ≤ fuel) : expandFinish env b prevKey pTop fuel x = some k := by
  rw [expandFinish]
  cases hu : x.unCmp with
  | none => simp [hx.none hu]
  | some p =>
    obtain ⟨hlen, hmap⟩ := hx.rest p hu
    have hkey := hk (by rintro rfl; simp at hlen)
    have hscan : scanDelims env b prevKey pTop p fuel 0 = some (0 + (k.drop x.cmpLen).length) := by
      refine scanDelims_key (isKey_drop hkey hlen) ?_ ?_ ?_
      · simpa using hmap
      · intro j hj
        rw [List.length_drop] at hj
        simpa using hreach p hu j (by omega)
      · rw [List.length_drop]
        exact hfuel (by simp [hu])
    simp only [hscan, Nat.zero_add, List.length_drop]
    rw [if_neg (by omega), hmap, hx.base, List.take_append_drop]

/-! ## The comparison with a record -/

theorem compareTarg_skip {key : List UInt8} (p : List UInt8) {i r : Nat} (hkey : ∀ j < p.length, key.getD (i + j) 0 = p.getD j 0)
    (hb : b.HasBytes r p) : compareTarg b key (p.length + n) i r = compareTarg b key n (i + p.length) (r + p.length) := by
  induction p generalizing i r with
  | nil => simp
  | cons a p ih =>
    obtain ⟨hbyte, hrest⟩ := GdsBlk.hasBytes_cons.1 hb
    have hk0 : key.getD i 0 = a := by simpa using hkey 0 (by simp)
    rw [show (a :: p).length + n = (p.length + n) + 1 by simp only [List.length_cons]; omega, compareTarg]
    simp only [hbyte, hk0, Int.sub_self, ne_eq, not_true_eq_false, if_false]
    rw [ih (i := i + 1) (r := r + 1) ?_ hrest]
    · simp only [List.length_cons, Nat.add_assoc, Nat.add_comm 1]
    · intro j hj
      have := hkey (j + 1) (by simpa using hj)
      simpa [Nat.add_assoc, Nat.add_comm 1 j] using this

/-- The comparison stops where the key of the record and the search key part, and its sign says which comes first. -/
theorem compareTarg_key {key : List UInt8} {m r : Nat} (hkey : isKey key = true) (hk : isKey k = true)
    (hm : m ≤ lcp k key) (hb : b.HasBytes r (k.drop m)) :
    ∃ nFlg, compareTarg b key (key.length - m) m r = (nFlg, lcp k key, key.length - lcp k key) ∧ (0 < nFlg ↔ k < key) := by
  have hskip : ∀ l, m ≤ l → l ≤ lcp k key → compareTarg b key (key.length - m) m r =
      compareTarg b key (key.length - l) l (r + (l - m)) := by
    intro l hml hl
    obtain ⟨hlk, hlkey, htake⟩ := le_lcp_iff.1 hl
    have hp : ((k.take l).drop m).length = l - m := by
      rw [List.length_drop, List.length_take, Nat.min_eq_left hlk]
    have hbytes : b.HasBytes r ((k.take l).drop m) := by
      have hsplit : k.drop m = (k.take l).drop m ++ k.drop l := by
        conv_lhs => rw [← List.take_append_drop l k]
        rw [List.drop_append_of_le_length (by rw [List.length_take]; omega)]
      rw [hsplit] at hb
      exact (GdsBlk.hasBytes_append.1 hb).1
    have hagree : ∀ j < ((k.take l).drop m).length, key.getD (m + j) 0 = ((k.take l).drop m).getD j 0 := by
      intro j hj
      rw [htake, List.getD_eq_getElem?_getD, List.getD_eq_getElem?_getD, List.getElem?_drop, List.getElem?_take_of_lt (by omega)]
    have h := compareTarg_skip ((k.take l).drop m) (n := key.length - l) hagree hbytes
    rw [hp, show l - m + (key.length - l) = key.length - m by omega, show m + (l - m) = l by omega] at h
    exact h
  rw [hskip _ hm le_rfl]
  by_cases heq : k = key
  · subst heq
    exact ⟨0, by simp [compareTarg], by simp⟩
  · have hnp : ¬k <+: key := fun h => heq (isKey_prefix_eq hk hkey h)
    have hnp' : ¬key <+: k := fun h => heq (isKey_prefix_eq hkey hk h).symm
    obtain ⟨p, x, y, u, v, rfl, rfl, hne⟩ : ∃ p x y u v, k = p ++ x :: u ∧ key = p ++ y :: v ∧ x ≠ y := by
      rcases lt_or_gt_of_ne heq with hlt | hlt
      · obtain ⟨p, x, y, u, v, h1, h2, hxy⟩ := split_of_lt hlt hnp
        exact ⟨p, x, y, u, v, h1, h2, hxy.ne⟩
      · obtain ⟨p, x, y, u, v, h1, h2, hxy⟩ := split_of_lt hlt hnp'
        exact ⟨p, y, x, v, u, h2, h1, hxy.ne'⟩
    rw [lcp_of_split p u v hne] at hm ⊢
    have hbyte : b.byte (r + (p.length - m)) = x := by
      have := hb.byte (i := p.length - m) (by simp only [List.length_drop, List.length_append, List.length_cons]; omega)
      rw [this, List.getElem_drop, List.getElem_append_right (by omega)]
      simp [show m + (p.length - m) - p.length = 0 by omega]
    have hget : (p ++ y :: v).getD p.length 0 = y := by simp
    have hnat : x.toNat ≠ y.toNat := fun h => hne (UInt8.toNat_inj.1 h)
    refine ⟨(y.toNat : Int) - x.toNat, ?_, ?_⟩
    · rw [show (p ++ y :: v).length - p.length = v.length + 1 by simp, compareTarg, hget, hbyte]
      rw [if_pos (by omega)]
    · rw [append_left_lt_iff, List.cons_lt_cons_iff, UInt8.lt_iff_toNat_lt]
      constructor
      · exact fun h => .inl (by omega)
      · rintro (h | ⟨h, -⟩)
        · omega
        · exact absurd h hne

/-! ## The loop -/

/-- The positions and match counts the variables stand for. -/
def SrchVars.stat (v : SrchVars) : SrchStat := ⟨⟨v.pPrevRec, v.nMatchCnt⟩, ⟨v.pRecBase, v.nTargLen⟩⟩

/-- The expansion, where there is one, stands for a key. -/
def AltIs (b : GdsBlk) (prevKey : List UInt8) (alt : Option Altkey) (k : List UInt8) : Prop :=
  ∀ x, alt = some x → Expands b prevKey x k

/-- The loop is at the record with key `prior`, which is before the search key; the records behind start at `off`. -/
structure SearchAt (env : SrchEnv) (b : GdsBlk) (key prevKey : List UInt8) (v : SrchVars) (off : Nat) (prior : List UInt8) :
    Prop where
  next : v.pRecBase + v.nRecLen = off
  mtch : v.nMatchCnt = lcp prior key
  targ : v.pCurrTarg = lcp prior key
  left : v.nTargLen = key.length - lcp prior key
  before : prior < key
  priorKey : prior ≠ [] → isKey prior = true
  alt : ∀ x, v.alt = some x → ∃ x', (if v.pRecBase = 0 then some x else expandStep env b prevKey v.pRecBase v.nTmp x) = some x' ∧
    Expands b prevKey x' prior

/-- The variables when the loop has stepped to the record of an entry. -/
def SrchVars.stepTo (v : SrchVars) (off : Nat) (prior : List UInt8) (e : Entry) (alt : Option Altkey) : SrchVars :=
  { v with alt := alt, nRecLen := e.size prior, pPrevRec := v.pRecBase, pRecBase := off, nTmp := e.cmpc prior }

section Loop

variable {env : SrchEnv} {b : GdsBlk} {key prevKey : List UInt8} {level0 : Bool} {v : SrchVars} {off : Nat} {prior : List UInt8}
  {e : Entry} {es : List Entry}

/-- One turn at the end of a block of level 0. -/
theorem searchTurn_end (h : SearchAt env b key prevKey v b.bsiz prior) :
    ∃ alt, (alt = none ↔ v.alt = none) ∧ AltIs b prevKey alt prior ∧ searchTurn env b key prevKey true b.bsiz v =
      .stop { v with nTargLen := 0, pPrevRec := v.pRecBase, pRecBase := b.bsiz, alt := alt } := by
  rw [searchTurn]
  cases ha : v.alt with
  | none =>
    refine ⟨none, by simp, nofun, ?_⟩
    simp [h.next]
  | some x =>
    obtain ⟨x', hx', hexp⟩ := h.alt x ha
    refine ⟨some x', by simp, fun y hy => by cases hy; exact hexp, ?_⟩
    by_cases h0 : v.pRecBase = 0
    · rw [if_pos h0] at hx'
      cases hx'
      simp [h0, ← h.next]
    · rw [if_neg h0] at hx'
      simp [h0, hx', h.next]

/-- One turn at a record: the compression count decides, or the comparison. -/
theorem searchTurn_rec (level0 : Bool) (h : SearchAt env b key prevKey v off prior) (hl : Laid b off prior (e :: es)) :
    ∃ alt, (alt = none ↔ v.alt = none) ∧ AltIs b prevKey alt prior ∧ searchTurn env b key prevKey level0 b.bsiz v =
      if v.nMatchCnt < e.cmpc prior then .next (v.stepTo off prior e alt)
      else if e.cmpc prior < v.nMatchCnt then
        .stop { v.stepTo off prior e alt with nTargLen := if isStarRec b level0 (e.size prior) then 0 else e.cmpc prior }
      else searchCompare b key level0 (v.stepTo off prior e alt) := by
  have hlt := hl.off_lt (by simp)
  obtain ⟨hrsiz, hcmpc, -, -, -⟩ := hl
  have hsize := e.recHdrSize_le_size prior
  rw [recHdrSize] at hsize
  have hpos : b.rsiz off ≠ 0 := by omega
  have hstep : ∀ alt, (if b.bsiz < off then Turn.fail BlkSc.blklenerr
      else if off = b.bsiz then
        if level0 then .stop { v with nTargLen := 0, pPrevRec := v.pRecBase, pRecBase := off, alt := alt }
        else .stop { v with nTargLen := 0, nMatchCnt := 0, alt := alt }
      else if b.rsiz off = 0 then .fail .badoffset
      else if v.nMatchCnt < b.evalCmpc off then
        .next { v with alt := alt, nRecLen := b.rsiz off, pPrevRec := v.pRecBase, pRecBase := off, nTmp := b.evalCmpc off }
      else if b.evalCmpc off < v.nMatchCnt then
        .stop { v with alt := alt, nRecLen := b.rsiz off, pPrevRec := v.pRecBase, pRecBase := off, nTmp := b.evalCmpc off,
                       nTargLen := if isStarRec b level0 (b.rsiz off) then 0 else b.evalCmpc off }
      else searchCompare b key level0
        { v with alt := alt, nRecLen := b.rsiz off, pPrevRec := v.pRecBase, pRecBase := off, nTmp := b.evalCmpc off }) =
      if v.nMatchCnt < e.cmpc prior then .next (v.stepTo off prior e alt)
      else if e.cmpc prior < v.nMatchCnt then
        .stop { v.stepTo off prior e alt with nTargLen := if isStarRec b level0 (e.size prior) then 0 else e.cmpc prior }
      else searchCompare b key level0 (v.stepTo off prior e alt) := by
    intro alt
    rw [if_neg (by omega), if_neg (by omega), if_neg hpos, hrsiz, hcmpc]
    rfl
  rw [searchTurn]
  simp only [h.next]
  cases ha : v.alt with
  | none => exact ⟨none, by simp, (by intro _ h; cases h), hstep none⟩
  | some x =>
    obtain ⟨x', hx', hexp⟩ := h.alt x ha
    refine ⟨some x', by simp, fun y hy => by cases hy; exact hexp, ?_⟩
    by_cases h0 : v.pRecBase = 0
    · rw [if_pos h0] at hx'
      cases hx'
      simp only [h0, if_true] at hstep ⊢
      exact hstep (some x)
    · rw [if_neg h0] at hx'
      simp only [h0, if_false, hx', Option.map_some]
      exact hstep (some x')

variable {k : List UInt8}

/-- A record with a key is larger than a star-key record. -/
theorem isStarRec_of_key (hk : e.key = some k) (hc : lcp prior k < k.length)
    (hval : level0 = false → e.val.length = sizeofBlkId b.longBlkId) : isStarRec b level0 (e.size prior) = false := by
  cases level0 with
  | true => simp [isStarRec]
  | false =>
    have hv := hval rfl
    have hne : bstarRecSize b.longBlkId ≠ e.size prior := by
      simp only [bstarRecSize, Entry.size, Entry.data, Entry.cmpc, Entry.keyBytes, hk, Option.getD_some, List.length_append,
        List.length_drop, hv]
      omega
    simp [isStarRec, hne]

/-- The comparison with a record: the search goes on behind a smaller key, and stops at any other. -/
theorem searchCompare_key (hkey : isKey key = true) (hk : isKey k = true) (hm : v.pCurrTarg ≤ lcp k key)
    (hleft : v.nTargLen = key.length - v.pCurrTarg) (hb : b.HasBytes (v.pRecBase + recHdrSize) (k.drop v.pCurrTarg))
    (hstar : isStarRec b level0 v.nRecLen = false) :
    searchCompare b key level0 v =
      if k < key then .next { v with nMatchCnt := lcp k key, nTargLen := key.length - lcp k key, pCurrTarg := lcp k key }
      else .stop { v with nTargLen := lcp k key, pCurrTarg := lcp k key } := by
  obtain ⟨nFlg, heq, hsign⟩ := compareTarg_key hkey hk hm hb
  rw [searchCompare, hleft, heq, hstar]
  simp only [hsign, Bool.false_eq_true, if_false]

/-- The count of bytes that a record with a key shares with the record before leaves two and more of its key. -/
theorem cmpc_add_two_le (hprior : prior ≠ [] → isKey prior = true) (hk : isKey k = true) (hlt : prior < k) : lcp prior k + 2 ≤ k.length := by
  by_cases hp : prior = []
  · simpa [hp] using isKey_length hk
  · have := lcp_add_two_le hk (fun h => hlt.ne (isKey_prefix_eq (hprior hp) hk h)) hlt
    omega

/-- The expansion moves on to the record of an entry. -/
theorem Laid.expandStep {x : Altkey} (hl : Laid b off prior (e :: es)) (hk : e.key = some k) (hik : isKey k = true)
    (hprior : prior ≠ [] → isKey prior = true) (hpk : prior < k) (hx : Expands b prevKey x prior) (hfit : k.length ≤ env.altTop) :
    ∃ x', Gtm.expandStep env b prevKey off (e.cmpc prior) x = some x' ∧ Expands b prevKey x' k := by
  have hdata : e.data prior = k.drop (lcp prior k) ++ e.val := by simp [Entry.data, Entry.cmpc, Entry.keyBytes, hk]
  have hc : e.cmpc prior = lcp prior k := by simp [Entry.cmpc, Entry.keyBytes, hk]
  obtain ⟨-, -, hbytes, hle, -⟩ := hl
  rw [hdata] at hbytes
  rw [Entry.size, hdata, List.length_append, List.length_drop] at hle
  rw [hc]
  exact expandStep_next hx (cmpc_add_two_le hprior hik hpk) hfit hbytes (by omega)

/-- The loop has stepped over a record with a key before the search key. -/
theorem SearchAt.step {alt : Option Altkey} (h : SearchAt env b key prevKey v off prior)
    (hl : Laid b off prior (e :: es)) (hk : e.key = some k) (hik : isKey k = true) (hpk : prior < k) (hlt : k < key) (hoff : off ≠ 0)
    (halt : AltIs b prevKey alt prior) (hfit : alt ≠ none → k.length ≤ env.altTop) :
    SearchAt env b key prevKey
      { v.stepTo off prior e alt with nMatchCnt := lcp k key, nTargLen := key.length - lcp k key, pCurrTarg := lcp k key }
      (off + e.size prior) k := by
  refine ⟨rfl, rfl, rfl, rfl, hlt, fun _ => hik, ?_⟩
  intro x hx
  have hx' : alt = some x := hx
  obtain ⟨x', hstep, hexp⟩ := hl.expandStep hk hik h.priorKey hpk (halt x hx') (hfit (by simp [hx']))
  exact ⟨x', (if_neg hoff).trans hstep, hexp⟩

/-- At the star-key record the search stops, whatever the block number compares like. -/
theorem searchLoop_star (fuel : Nat) (h : SearchAt env b key prevKey v off prior) (hl : Laid b off prior [e]) (hk : e.key = none)
    (hval : e.val.length = sizeofBlkId b.longBlkId) (halt : v.alt = none) :
    ∃ v', searchLoop env b key prevKey false b.bsiz (fuel + 2) (.next v) = .ok v' ∧
      v'.stat = ⟨⟨v.pRecBase, v.nMatchCnt⟩, ⟨off, 0⟩⟩ ∧ v'.alt = none := by
  obtain ⟨alt, hnone, -, hturn⟩ := searchTurn_rec false h hl
  obtain rfl := hnone.2 halt
  have hend : off + e.size prior = b.bsiz := hl.2.2.2.2
  have hcmpc : e.cmpc prior = 0 := by simp [Entry.cmpc, Entry.keyBytes, hk]
  have hstar : isStarRec b false (e.size prior) = true := by
    simp [isStarRec, bstarRecSize, Entry.size, Entry.data, Entry.keyBytes, hk, hval]
  rw [searchLoop, hturn, hcmpc, if_neg (by omega)]
  by_cases hm : 0 < v.nMatchCnt
  · rw [if_pos hm, hstar]
    exact ⟨_, rfl, rfl, rfl⟩
  · have hm0 : v.nMatchCnt = 0 := by omega
    rw [if_neg hm, searchCompare]
    simp only [SrchVars.stepTo, hstar]
    split
    · -- the search key is behind the bytes of the block number: one more turn ends the block
      rw [searchLoop, searchTurn]
      simp only [hend, lt_irrefl, if_false, if_true, Bool.false_eq_true, searchLoop]
      exact ⟨_, rfl, by simp [SrchVars.stat, hm0], rfl⟩
    · exact ⟨_, rfl, rfl, rfl⟩

/-- The loop finds the position the search by full keys finds. -/
theorem searchLoop_entries {n : Nat} (hkey : isKey key = true) (hl : Laid b off prior es)
    (hc : Contents level0 (sizeofBlkId b.longBlkId) prior es) (h : SearchAt env b key prevKey v off prior) (hoff : off ≠ 0)
    (halt : level0 = false → v.alt = none) (hfit : v.alt ≠ none → ∀ e ∈ es, e.keyBytes.length ≤ env.altTop) (hfuel : b.bsiz + 2 ≤ n + off) :
    ∃ v', searchLoop env b key prevKey level0 b.bsiz n (.next v) = .ok v' ∧
      v'.stat = (searchEntries key ⟨v.pRecBase, v.nMatchCnt⟩ prior off es).1 ∧ (v'.alt = none ↔ v.alt = none) ∧
      AltIs b prevKey v'.alt (searchEntries key ⟨v.pRecBase, v.nMatchCnt⟩ prior off es).2 := by
  induction es generalizing v off prior n with
  | nil =>
    have hend : off = b.bsiz := hl
    subst hend
    have hlevel : level0 = true := hc
    subst hlevel
    obtain ⟨fuel, rfl⟩ : ∃ m, n = m + 1 := ⟨n - 1, by omega⟩
    obtain ⟨alt, hnone, hexp, hturn⟩ := searchTurn_end h
    rw [searchLoop, hturn, searchLoop]
    exact ⟨_, rfl, rfl, hnone, hexp⟩
  | cons e es ih =>
    have hrest := hl.2.2.2.2
    have hbytes := hl.2.2.1
    have hle := hrest.off_le
    have hsize := e.recHdrSize_le_size prior
    rw [recHdrSize] at hsize
    cases hk : e.key with
    | none =>
      simp only [Contents, hk] at hc
      obtain ⟨rfl, rfl, hval⟩ := hc
      obtain ⟨fuel, rfl⟩ : ∃ m, n = m + 2 := ⟨n - 2, by omega⟩
      obtain ⟨v', hv', hstat, hnone⟩ := searchLoop_star fuel h hl hk hval (halt rfl)
      refine ⟨v', hv', ?_, ?_, ?_⟩
      · simpa [searchEntries, hk] using hstat
      · simp [hnone, halt rfl]
      · simp [AltIs, hnone]
    | some k =>
      have hkb : e.keyBytes = k := by simp [Entry.keyBytes, hk]
      simp only [Contents, hk] at hc
      obtain ⟨hik, hpk, hval, hc⟩ := hc
      have hcmpc : e.cmpc prior = lcp prior k := by simp [Entry.cmpc, hkb]
      have hc2 := cmpc_add_two_le h.priorKey hik hpk
      have hstar : isStarRec b level0 (e.size prior) = false := isStarRec_of_key hk (by omega) hval
      obtain ⟨fuel, rfl⟩ : ∃ m, n = m + 1 := ⟨n - 1, by omega⟩
      obtain ⟨alt, hnone, hexp, hturn⟩ := searchTurn_rec level0 h hl
      have hfitk : alt ≠ none → k.length ≤ env.altTop := by
        intro ha
        rw [← hkb]
        exact hfit (fun h => ha (hnone.2 h)) e (by simp)
      -- behind a smaller key the loop goes on
      have hnext : k < key → ∃ v', searchLoop env b key prevKey level0 b.bsiz fuel (.next { v.stepTo off prior e alt with
            nMatchCnt := lcp k key, nTargLen := key.length - lcp k key, pCurrTarg := lcp k key }) = .ok v' ∧
          v'.stat = (searchEntries key ⟨off, lcp k key⟩ k (off + e.size prior) es).1 ∧ (v'.alt = none ↔ v.alt = none) ∧
          AltIs b prevKey v'.alt (searchEntries key ⟨off, lcp k key⟩ k (off + e.size prior) es).2 := by
        intro hkk
        have hat := h.step hl hk hik hpk hkk hoff hexp hfitk
        obtain ⟨v', h1, h2, h3, h4⟩ := ih (n := fuel) (by rw [← hkb]; exact hrest) hc hat (by omega) (fun hl0 => hnone.2 (halt hl0))
          (fun ha e' he' => hfit (fun hn => ha (hnone.2 hn)) e' (List.mem_cons_of_mem _ he')) (by omega)
        exact ⟨v', h1, h2, h3.trans hnone, h4⟩
      have hpre : prior ≠ [] → ¬prior <+: key := fun hp hpre => h.before.ne (isKey_prefix_eq (h.priorKey hp) hkey hpre)
      have hpre' : prior ≠ [] → ¬prior <+: k := fun hp hpre => hpk.ne (isKey_prefix_eq (h.priorKey hp) hik hpre)
      rw [searchLoop, hturn, hcmpc]
      simp only [searchEntries, hk]
      by_cases h1 : v.nMatchCnt < lcp prior k
      · -- the record agrees with the one before further than the search key does
        rw [if_pos h1]
        rw [h.mtch] at h1
        have hp : prior ≠ [] := by
          rintro rfl
          simp at h1
        obtain ⟨hkk, heq⟩ := lt_of_lcp_lt (hpre hp) h.before h1
        have hv : v.stepTo off prior e alt = { v.stepTo off prior e alt with
            nMatchCnt := lcp k key, nTargLen := key.length - lcp k key, pCurrTarg := lcp k key } := by
          rw [heq, ← h.left]
          simp only [SrchVars.stepTo, h.mtch, h.targ]
        rw [if_pos hkk, hv]
        exact hnext hkk
      · rw [if_neg h1]
        by_cases h2 : lcp prior k < v.nMatchCnt
        · -- the search key agrees with the record before further
          rw [if_pos h2, hstar, searchLoop]
          rw [h.mtch] at h2
          have hp : prior ≠ [] := by
            rintro rfl
            simp at h2
          obtain ⟨hkk, heq⟩ := lt_of_lcp_lt (hpre' hp) hpk h2
          rw [lcp_comm] at heq
          rw [if_neg hkk.asymm]
          refine ⟨_, rfl, ?_, hnone, hexp⟩
          simp [SrchVars.stat, SrchVars.stepTo, heq]
        · rw [if_neg h2]
          have heq : lcp prior k = lcp prior key := by
            rw [← h.mtch]
            omega
          have hm : lcp prior key ≤ lcp k key := by
            rw [le_lcp_iff]
            refine ⟨heq ▸ lcp_le_right _ _, lcp_le_right _ _, ?_⟩
            rw [← take_eq_of_le_lcp (le_refl (lcp prior key)), ← heq, take_eq_of_le_lcp (le_refl (lcp prior k))]
          have hb : b.HasBytes (off + recHdrSize) (k.drop v.pCurrTarg) := by
            rw [h.targ, ← heq]
            rw [Entry.data, hcmpc, hkb] at hbytes
            exact (GdsBlk.hasBytes_append.1 hbytes).1
          rw [searchCompare_key hkey hik (by rw [show (v.stepTo off prior e alt).pCurrTarg = v.pCurrTarg from rfl, h.targ]; exact hm)
            (by rw [show (v.stepTo off prior e alt).nTargLen = v.nTargLen from rfl, h.left, ← h.targ]; rfl) hb hstar]
          by_cases hkk : k < key
          · rw [if_pos hkk, if_pos hkk]
            exact hnext hkk
          · rw [if_neg hkk, if_neg hkk, searchLoop]
            exact ⟨_, rfl, rfl, hnone, hexp⟩

end Loop

/-! ## The search of a whole block -/

variable {es : List Entry}

/-- Keys that are searched or found among entries are keys. -/
theorem searchEntries_prior (key : List UInt8) (prev : SrchRec) (off : Nat) {prior : List UInt8} {level0 : Bool} {n : Nat}
    (hc : Contents level0 n prior es) (hprior : prior ≠ [] → isKey prior = true) :
    (searchEntries key prev prior off es).2 ≠ [] → isKey (searchEntries key prev prior off es).2 = true := by
  induction es generalizing prior off prev with
  | nil => exact hprior
  | cons e es ih =>
    cases hk : e.key with
    | none => simpa [searchEntries, hk] using hprior
    | some k =>
      simp only [Contents, hk] at hc
      by_cases hlt : k < key
      · simpa [searchEntries, hk, hlt] using ih _ _ hc.2.2.2 fun _ => hc.1
      · simpa [searchEntries, hk, hlt] using hprior

theorem searchEntries_fit (key : List UInt8) (prev : SrchRec) (off : Nat) {prior : List UInt8} {top : Nat}
    (hprior : prior.length ≤ top) (hes : ∀ e ∈ es, e.keyBytes.length ≤ top) : (searchEntries key prev prior off es).2.length ≤ top := by
  induction es generalizing prior off prev with
  | nil => exact hprior
  | cons e es ih =>
    cases hk : e.key with
    | none => simpa [searchEntries, hk] using hprior
    | some k =>
      have hkl : k.length ≤ top := by simpa [Entry.keyBytes, hk] using hes e (by simp)
      by_cases hlt : k < key
      · simpa [searchEntries, hk, hlt] using ih _ _ hkl fun e' he' => hes e' (List.mem_cons_of_mem _ he')
      · simpa [searchEntries, hk, hlt] using hprior

/-- A pointer into the block stays clear of its end until the key it points to ends. -/
theorem Expands.reaches_blk {env : SrchEnv} {b : GdsBlk} {prevKey k : List UInt8} {x : Altkey} (hx : Expands b prevKey x k)
    {off j : Nat} (hu : x.unCmp = some (.blk off)) (hj : x.cmpLen + j + 2 ≤ k.length) :
    (KeyPtr.blk off).reaches env j (.blk (b.bsiz - 1)) = false := by
  have hin := hx.inBlk off hu
  simp only [KeyPtr.reaches, decide_eq_false_iff_not]
  omega

/-- `gvcst_search_blk` on a well-formed block. -/
theorem gvcstSearchBlk_wf {env : SrchEnv} {b : GdsBlk} {key : List UInt8} (h : WfBlk b es)
    (hb : b.bsiz ≤ env.blkSize) (hkey : isKey key = true)
    (hfit : env.expandPrevKey = true → ∀ e ∈ es, e.keyBytes.length ≤ env.altTop) (stat : SrchStat) (altkey : List UInt8) :
    gvcstSearchBlk env b key stat altkey = ⟨.normal, (searchEntries key ⟨0, 0⟩ [] blkHdrSize es).1,
        if b.levl = 0 ∧ env.expandPrevKey = true then (searchEntries key ⟨0, 0⟩ [] blkHdrSize es).2 else altkey⟩ := by
  have htop : srchTop env b = b.bsiz := Nat.min_eq_left hb
  have hbefore : ([] : List UInt8) < key := by
    obtain ⟨a, k, rfl⟩ := List.exists_cons_of_ne_nil (isKey_ne_nil hkey)
    exact List.nil_lt_cons _ _
  set alt : Option Altkey := if decide (b.levl = 0) && env.expandPrevKey then some ⟨[], 0, none⟩ else none with halt
  have hsome : alt ≠ none ↔ b.levl = 0 ∧ env.expandPrevKey = true := by
    rw [halt]
    split
    · next hc => simpa using hc
    · next hc => simpa using hc
  have hat : SearchAt env b key [] ⟨0, blkHdrSize, 0, 0, key.length, 0, 0, alt⟩ blkHdrSize [] := by
    refine ⟨rfl, by simp, by simp, by simp, hbefore, nofun, ?_⟩
    intro x hx
    refine ⟨x, rfl, ?_⟩
    have hx' : x = ⟨[], 0, none⟩ := by
      simp only [halt] at hx
      split at hx <;> simp_all
    subst hx'
    exact ⟨by simp, rfl, nofun, nofun, nofun, fun _ => rfl⟩
  obtain ⟨v', hloop, hstat, hnone, hexp⟩ := searchLoop_entries (n := b.bsiz + 1) hkey h.laid h.contents hat (by simp [blkHdrSize])
    (fun hl => by
      by_contra hne
      have := (hsome.1 hne).1
      simp [this] at hl)
    (fun ha => hfit (hsome.1 ha).2) (by rw [blkHdrSize]; omega)
  have hprior := searchEntries_prior key ⟨0, 0⟩ blkHdrSize h.contents nofun
  simp only [gvcstSearchBlk, htop]
  rw [hloop, searchEnd, ← hstat]
  cases hv : v'.alt with
  | none =>
    have hnot : ¬(b.levl = 0 ∧ env.expandPrevKey = true) := fun hc => hsome.2 hc (hnone.1 hv)
    simp only [if_neg hnot]
    rfl
  | some x =>
    have hc : b.levl = 0 ∧ env.expandPrevKey = true := hsome.1 fun hn => by simp [hnone.2 hn] at hv
    have hx : Expands b [] x (searchEntries key ⟨0, 0⟩ [] blkHdrSize es).2 := hexp x hv
    have hlen : (searchEntries key ⟨0, 0⟩ [] blkHdrSize es).2.length ≤ env.altTop :=
      searchEntries_fit key ⟨0, 0⟩ blkHdrSize (Nat.zero_le _) (hfit hc.2)
    have hfin : expandFinish env b [] (.blk (b.bsiz - 1)) b.bsiz x = some (searchEntries key ⟨0, 0⟩ [] blkHdrSize es).2 := by
      have hkeyPtr : ∀ off, x.unCmp ≠ some (.key off) := by
        intro off hp
        have hlen2 := (hx.rest _ hp).1
        simp [hx.inKey off hp] at hlen2
      refine expandFinish_key hx hprior hlen ?_ ?_
      · intro p hp j hj
        cases p with
        | blk off => exact hx.reaches_blk hp hj
        | key off => exact absurd hp (hkeyPtr off)
      · intro hu
        obtain ⟨p, hp⟩ := Option.ne_none_iff_exists'.1 hu
        cases p with
        | blk off =>
          have := hx.inBlk off hp
          omega
        | key off => exact absurd hp (hkeyPtr off)
    simp only [hfin, if_pos hc]
    rfl

end Gtm
