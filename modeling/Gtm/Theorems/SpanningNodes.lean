import Gtm.Lemmas.SpanningRead

/-!
# The keys `op_gvname` builds

A key made of a name and subscripts appended by `mval2subsc`, under either null collation and with any collation transformation, is
the key of a node in the sense of `NodeSubs`; so are the keys `op_gvorder` and `op_gvquery` make of it.
-/

namespace Gtm

open SortedMap LexOrder Terminated Positional SubscriptBytesAux SubscriptOrderAux

/-- A key of a name and its subscripts, `n` in all, as `op_gvname` builds it. -/
inductive GvName (coll : Collation) (std : Bool) : GvKey → Nat → Prop
  | name {k : GvKey} {g : List UInt8} (hne : g ≠ []) (hfree : keyDelimiter ∉ g) (hbase : k.base = g ++ [keyDelimiter])
      (hprev : k.prev = 0) : GvName coll std k 1
  | subsc {k k' : GvKey} {n : Nat} {v : Mval} (hk : GvName coll std k n) (hn : n < maxGvsubscripts) (hv : v.SubscValid)
      (h : mval2subsc coll v k std = .ok k') : GvName coll std k' (n + 1)

/-- The key `op_gvorder` searches with; `lastSubscNull` is `gv_last_subsc_null`. -/
def gvorderKey (std lastSubscNull : Bool) (k : GvKey) : GvKey :=
  if lastSubscNull = false ∨ std = true then { k with base := k.base.take (k.kend - 1) ++ [1, keyDelimiter] }
  else { k with base := k.base.set k.prev 1 }

/-- The key `op_gvquery` searches with. -/
def gvqueryKey (std lastSubscNull : Bool) (k : GvKey) : GvKey :=
  if lastSubscNull = true ∧ std = false then { k with base := k.base.set k.prev 1 } else gvkeyIncrementQuery k

namespace NodeKeyAux

/-! ### Subscripts -/

theorem trailingOnes_append_of_ne {c : UInt8} (hc : c ≠ 1) (s : List UInt8) : trailingOnes (s ++ [c]) = 0 := by
  simp [trailingOnes, hc]

theorem escapeBytes_append (s t : List UInt8) : escapeBytes (s ++ t) = escapeBytes s ++ escapeBytes t := by
  induction s with
  | nil => rfl
  | cons c s ih =>
    rw [List.cons_append, escapeBytes, escapeBytes, ih]
    split <;> rfl

/-- At the end of an escaped string ones stand in pairs. -/
theorem even_trailingOnes_escape (s : List UInt8) : Even (trailingOnes (strSubPrefix :: escapeBytes s)) := by
  induction s using List.reverseRecOn with
  | nil => decide
  | append_singleton s c ih =>
    rw [escapeBytes_append, ← List.cons_append]
    by_cases hc : c ≤ 1
    · rcases byte_le_one hc with rfl | rfl
      · have h2 : trailingOnes ((strSubPrefix :: escapeBytes s) ++ [1, 1]) =
            trailingOnes (strSubPrefix :: escapeBytes s) + 2 := by simp [trailingOnes]
        change Even (trailingOnes ((strSubPrefix :: escapeBytes s) ++ [1, 1]))
        rw [h2]
        exact ih.add (by decide)
      · have hesc : (strSubPrefix :: escapeBytes s) ++ escapeBytes [1] = ((strSubPrefix :: escapeBytes s) ++ [1]) ++ [2] := by
          simp [escapeBytes, strSubEscape]
        rw [hesc, trailingOnes_append_of_ne (by decide)]
        exact Even.zero
    · have hesc : escapeBytes [c] = [c] := by simp [escapeBytes, hc]
      have hne : c ≠ 1 := by
        rintro rfl
        exact hc le_rfl
      rw [hesc, trailingOnes_append_of_ne hne]
      exact Even.zero

theorem strBytes_subBytes (std : Bool) (s : List UInt8) : SubBytes std (strBytes std s) := by
  refine ⟨?_, strBytes_pos std s, ?_, ?_, ?_⟩
  · obtain ⟨c, t, h, -⟩ := strBytes_head std s
    simp [h]
  · unfold strBytes
    split <;> cases std <;> simp [subscriptStdcolNull, strSubPrefix]
  · unfold strBytes
    split <;> cases std <;> simp [subscriptStdcolNull, strSubPrefix]
  · unfold strBytes
    split
    · cases std
      · exact .inr (by decide)
      · exact .inl rfl
    · exact .inr (even_trailingOnes_escape s)

/-- The last byte of a number is not one: there is no trailing pair of zeros. -/
theorem numberBytes_ones {neg : Bool} {n : ℕ} {ps : List ℕ} {e : ℤ} {q : ℚ} (hn : Normal 100 e ps q) :
    trailingOnes (numberBytes neg n ps) = 0 := by
  cases neg with
  | true =>
    have : numberBytes true n ps = (expByte true n :: ps.map (cvtTable true)) ++ [negMntssaEnd] := by simp [numberBytes]
    exact trailingOnes_append_of_ne (by decide) _
  | false =>
    obtain ⟨ds, d, rfl⟩ : ∃ ds d, ps = ds ++ [d] := ⟨_, _, (List.dropLast_append_getLast hn.ne_nil).symm⟩
    have hd : d < 100 := hn.digits d (by simp)
    have hd0 : d ≠ 0 := by
      rintro rfl
      exact hn.trimmed (by simp)
    have hsplit : numberBytes false n (ds ++ [d]) = (expByte false n :: ds.map (cvtTable false)) ++ [posCode d] := by
      simp [numberBytes, cvtTable]
    rw [hsplit]
    refine trailingOnes_append_of_ne ?_ _
    intro h1
    have := congrArg UInt8.toNat h1
    rw [posCode_toNat hd] at this
    simp at this
    omega

theorem numSubsc_subBytes (std : Bool) {v : Mval} (hv : v.NumValid) : SubBytes std (numSubsc v) := by
  have henc := numSubsc_encodes std v hv
  obtain ⟨c, t, hct, hhead⟩ := encodes_num_head henc
  obtain ⟨hlo, -⟩ := hhead.range
  have hne1 : c ≠ 1 := by
    rintro rfl
    simp at hlo
  have hpos : ∀ x ∈ numSubsc v, keyDelimiter < x := by
    intro x hx
    have hx0 : x ≠ keyDelimiter := by
      rintro rfl
      exact encodes_not_mem henc hx
    have : x.toNat ≠ 0 := fun h0 => hx0 (UInt8.toNat_inj.1 h0)
    exact Nat.pos_of_ne_zero this
  have hones : Even (trailingOnes (numSubsc v)) := by
    rcases numSubsc_cases v hv with ⟨-, -, hb⟩ | ⟨neg, n, ps, q, hb, -, -, hn, -⟩
    · rw [hb]
      decide
    · rw [hb, numberBytes_ones hn]
      exact Even.zero
  refine ⟨by simp [hct], hpos, ?_, ?_, .inr hones⟩
  · -- a number starts with 18 at least
    rw [hct]
    intro h2
    obtain rfl : c = 2 := by simpa using h2
    rcases hhead with h | h | h <;> simp at h
  · rw [hct]
    intro h1
    exact absurd (by simpa using h1) hne1

/-- What `mval2subsc` appends are the bytes of a subscript, whatever the collation. -/
theorem mval2subsc_subBytes {coll : Collation} {v : Mval} (hv : v.SubscValid) {k k' : GvKey} {std : Bool}
    (h : mval2subsc coll v k std = .ok k') : ∃ b, SubBytes std b ∧ k'.base = k.base ++ (b ++ [keyDelimiter]) ∧ k'.prev = k.kend := by
  obtain ⟨w, hw, hspec⟩ : ∃ w, subscMval coll v = .ok w ∧ (w.mvtype.numApprox = true ∨ (w.mvtype.numApprox = false ∧ w.NumValid)) := by
    by_cases hc : coll.transform = true ∧ coll.nct = true
    · exact ⟨_, by rw [subscMval, if_pos hc], .inl rfl⟩
    · have hdefault : Collation.Plain {} := .inl rfl
      obtain ⟨w, hw, hspec⟩ := subscMval_spec hdefault hv
      have hsame : subscMval coll v = subscMval {} v := by
        have hplain : ¬ (({} : Collation).transform = true ∧ ({} : Collation).nct = true) := by simp
        rw [subscMval, subscMval, if_neg hc, if_neg hplain]
      refine ⟨w, hsame.trans hw, ?_⟩
      rcases hspec with ⟨ha, -⟩ | ⟨ha, hn, -⟩
      · exact .inl ha
      · exact .inr ⟨ha, hn⟩
  unfold mval2subsc at h
  rw [hw] at h
  simp only at h
  split at h
  · simp at h
  · rename_i bytes hbytes
    split at h
    · simp at h
    · obtain rfl := Except.ok.inj h
      refine ⟨bytes, ?_, by simp, rfl⟩
      rcases hspec with ha | ⟨ha, hn⟩
      · rw [if_pos ha] at hbytes
        rw [strSubsc_eq hbytes]
        exact strBytes_subBytes std _
      · rw [if_neg (by simp [ha])] at hbytes
        rw [← Option.some.inj hbytes]
        exact numSubsc_subBytes std hn

/-! ### Keys -/

/-- A key of `op_gvname` is the key of a list of subscripts. -/
theorem GvName.nodeSubs {coll : Collation} {std : Bool} {k : GvKey} {n : ℕ} (h : GvName coll std k n) :
    ∃ u, NodeSubs std u ∧ k.IsKeyOf u ∧ u.length = n := by
  induction h with
  | @name k g hne hfree hbase hprev =>
    refine ⟨[g], ⟨by simp, ?_, by simp, by simp [maxGvsubscripts]⟩, ⟨by simp [hbase], by simp [hprev]⟩, rfl⟩
    intro s hs
    rw [List.mem_singleton.1 hs]
    refine ⟨hne, ?_⟩
    intro x hx
    refine Nat.pos_of_ne_zero fun h0 => hfree ?_
    rw [← show x = keyDelimiter from UInt8.toNat_inj.1 h0]
    exact hx
  | @subsc k k' n v _ hn hv h ih =>
    obtain ⟨u, hu, hk, hlen⟩ := ih
    obtain ⟨b, hb, hbase, hprev⟩ := mval2subsc_subBytes hv h
    refine ⟨u ++ [b], ⟨by simp, hu.free.append hb.free, ?_, ?_⟩, ⟨?_, ?_⟩, by simp [hlen]⟩
    · intro s hs
      rw [List.tail_append_of_ne_nil hu.ne_nil] at hs
      rcases List.mem_append.1 hs with hs | hs
      · exact hu.subs s hs
      · rw [List.mem_singleton.1 hs]
        exact hb
    · rw [List.length_append, hlen]
      exact hn
    · rw [hbase, hk.base_eq]
      simp
    · rw [hprev, GvKey.kend, hk.base_eq]
      simp

/-- The key `op_gvorder` makes of a key with subscripts. -/
theorem gvorderKey_spec {std : Bool} {u : List (List UInt8)} (hu : NodeSubs std u) (h2 : 2 ≤ u.length) {k : GvKey}
    (hk : k.IsKeyOf u) {lastSubscNull : Bool}
    (hnull : lastSubscNull = true → std = false → k.base.drop k.prev = [strSubPrefix, keyDelimiter]) :
    ∃ q t, NodeSubs std q ∧ OrderSub std t ∧ (gvorderKey std lastSubscNull k).base = keyBase (q ++ [t]) ∧
      (gvorderKey std lastSubscNull k).prev = (keyBase q).length := by
  obtain ⟨q, s, rfl⟩ : ∃ q s, u = q ++ [s] := ⟨_, _, (List.dropLast_append_getLast hu.ne_nil).symm⟩
  have hq0 : q ≠ [] := by
    rintro rfl
    simp at h2
  have hq : NodeSubs std q := hu.of_prefix hq0 (List.prefix_append _ _)
  have hs : SubBytes std s := NodeSubs.sub_of_append hq0 hu
  have hprev : k.prev = (keyBase q).length := by rw [hk.prev_eq, List.dropLast_concat]
  have hb : k.base = (keyBase q ++ s) ++ [keyDelimiter] := by simp [hk.base_eq]
  by_cases hcase : lastSubscNull = false ∨ std = true
  · refine ⟨q, s ++ [1], hq, .inl ⟨s, hs, rfl⟩, ?_, ?_⟩
    · have htake : k.base.take (k.kend - 1) = keyBase q ++ s := by
        rw [GvKey.kend, hb]
        exact List.take_left' (by simp)
      rw [gvorderKey, if_pos hcase]
      simp [htake]
    · rw [gvorderKey, if_pos hcase]
      exact hprev
  · have hl : lastSubscNull = true := by
      rw [← Bool.not_eq_false]
      exact fun h => hcase (.inl h)
    have hstd : std = false := by
      rw [← Bool.not_eq_true]
      exact fun h => hcase (.inr h)
    refine ⟨q, [1], hq, .inr ⟨rfl, hstd⟩, ?_, ?_⟩
    · have hsplit : k.base = keyBase q ++ [strSubPrefix, keyDelimiter] := by
        have htake : k.base.take k.prev = keyBase q := by
          rw [hprev, hb, List.append_assoc, List.take_left]
        rw [← hnull hl hstd, ← htake, List.take_append_drop]
      rw [gvorderKey, if_neg hcase]
      simp [hsplit, hprev]
    · rw [gvorderKey, if_neg hcase]
      exact hprev

/-- The key `op_gvquery` makes of a key. -/
theorem gvqueryKey_spec {std : Bool} {u : List (List UInt8)} (hu : NodeSubs std u) {k : GvKey} (hk : k.IsKeyOf u)
    {lastSubscNull : Bool} (hnull : lastSubscNull = true → std = false → k.base.drop k.prev = [strSubPrefix, keyDelimiter]) :
    ∃ w, Free keyDelimiter w ∧ (gvqueryKey std lastSubscNull k).base = keyBase w := by
  by_cases hcase : lastSubscNull = true ∧ std = false
  · have htake : k.base.take k.prev = keyBase u.dropLast := by
      have hb : k.base = keyBase u.dropLast ++ keyBase [u.getLast hu.ne_nil] := by
        rw [← keyBase_append, List.dropLast_append_getLast hu.ne_nil, hk.base_eq]
      rw [hk.prev_eq, hb, List.take_left]
    have hsplit : k.base = keyBase u.dropLast ++ [strSubPrefix, keyDelimiter] := by
      rw [← hnull hcase.1 hcase.2, ← htake, List.take_append_drop]
    refine ⟨u.dropLast ++ [[1]], Free.concat (hu.free.of_prefix (List.dropLast_prefix u)) (by simp) (by decide), ?_⟩
    rw [gvqueryKey, if_pos hcase]
    simp [hsplit, hk.prev_eq]
  · refine ⟨u ++ [[1]], free_append_one hu, ?_⟩
    rw [gvqueryKey, if_neg hcase]
    simp [gvkeyIncrementQuery, hk.base_eq]

end NodeKeyAux

end Gtm

/-!
## Spanning nodes are transparent

A run of sets and kills that starts with an empty global keeps, in the store, the map of whole values that the same sets and kills
make; so every read answers as on that map, whatever values were cut into chunks on the way.
-/

namespace Gtm

open SortedMap NodeKeyAux

/-- One update of a global. -/
inductive GvUpdate where
  | put (key : GvKey) (val : List UInt8)
  | kill (key : GvKey) (doSubtree inTp : Bool)

def GvUpdate.key : GvUpdate → GvKey
  | .put key _ => key
  | .kill key _ _ => key

/-- `gvcst_put` or `gvcst_kill` with `gv_currkey` set to the key. -/
def GvUpdate.run (env : GvEnv) (s : GvState) : GvUpdate → GvState
  | .put key val => gvcstPut env { s with currkey := key } val
  | .kill key doSubtree inTp => gvcstKill inTp { s with currkey := key } doSubtree

/-- What an update means for the map of whole values. -/
def GvUpdate.apply (A : Store) : GvUpdate → Store
  | .put key val => insert key.bytes val A
  | .kill key doSubtree _ => remove (killReaches key doSubtree) A

/-- A value that can be set: not longer than a string can be, and cut into fewer than 65000 chunks. -/
def PutOk (env : GvEnv) (key : GvKey) (val : List UInt8) : Prop :=
  let size := computeChunkSize env (appendHiddenSub key)
  0 < size ∧ (val.length + size.toNat - 1) / size.toNat < 65000 ∧ val.length ≤ maxStrlen

/-- The key is one `op_gvname` builds and a value set under it can be. -/
def GvUpdate.Valid (env : GvEnv) (coll : Collation) : GvUpdate → Prop
  | .put key val => (∃ n, GvName coll env.stdNullColl key n) ∧ PutOk env key val
  | .kill key _ _ => ∃ n, GvName coll env.stdNullColl key n

/-- The state answers every read as the map `A`, restores `gv_currkey`, and keeps nothing but the records of the values of `A`. -/
structure Transparent (env : GvEnv) (coll : Collation) (s : GvState) (A : Store) : Prop where
  get : ∀ k n, GvName coll env.stdNullColl k n →
    gvcstGet env { s with currkey := k } = (some (lookup k.bytes A), { s with currkey := k })
  dataget : ∀ k n, GvName coll env.stdNullColl k n → ∀ dgInfo, dgInfo = .getOnly ∨ dgInfo = .dataGet →
    gvcstDataget env { s with currkey := k } dgInfo = (some (gvcstDataget2 A k dgInfo), { s with currkey := k })
  data : ∀ k n, GvName coll env.stdNullColl k n →
    (gvcstData { s with currkey := k }).1 = dollarData A k 0 ∧ (gvcstData { s with currkey := k }).2.currkey = k ∧
      (gvcstData { s with currkey := k }).2.store = s.store
  order : ∀ k n, GvName coll env.stdNullColl k n → 2 ≤ n → ∀ lastSubscNull key, key = gvorderKey env.stdNullColl lastSubscNull k →
    (lastSubscNull = true → env.stdNullColl = false → k.base.drop k.prev = [strSubPrefix, keyDelimiter]) →
    SameFound ((gvcstOrder { s with currkey := key }).1, (gvcstOrder { s with currkey := key }).2.altkey)
        (gvcstOrder2 A key s.altkey) ∧
      (gvcstOrder { s with currkey := key }).2.currkey = key ∧ (gvcstOrder { s with currkey := key }).2.store = s.store
  query : ∀ k n, GvName coll env.stdNullColl k n → ∀ lastSubscNull key, key = gvqueryKey env.stdNullColl lastSubscNull k →
    (lastSubscNull = true → env.stdNullColl = false → k.base.drop k.prev = [strSubPrefix, keyDelimiter]) →
    SameFound ((gvcstQuery { s with currkey := key }).1, (gvcstQuery { s with currkey := key }).2.altkey)
        (gvcstQuery2 A key s.altkey) ∧
      (gvcstQuery { s with currkey := key }).2.currkey = key ∧ (gvcstQuery { s with currkey := key }).2.store = s.store
  restored : ∀ x : GvUpdate, x.Valid env coll → (x.run env s).currkey = x.key
  exact : ∀ e, e ∈ s.store ↔
    ∃ u v, NodeSubs env.stdNullColl u ∧ (keyBytes u, v) ∈ A ∧ ∃ f ∈ records env u v, e = (keyBytes f.1, f.2)

namespace SpanningNodesAux

variable {env : GvEnv} {coll : Collation} {s : GvState} {A : Store}

theorem PutOk.valOk {k : GvKey} {u : List (List UInt8)} {v : List UInt8} (hk : k.base = keyBase u) (h : PutOk env k v) : ValOk env u v := by
  obtain ⟨h1, h2, h3⟩ := h
  rw [chunkSize_eq hk] at h2
  refine ⟨?_, h2, h3⟩
  rw [← chunkSize_eq hk]
  omega

/-- One update keeps the map, and the key. -/
theorem rep_run (hR : Rep env env.stdNullColl s.store A) (x : GvUpdate) (hx : x.Valid env coll) :
    Rep env env.stdNullColl (x.run env s).store (x.apply A) ∧ (x.run env s).currkey = x.key := by
  cases x with
  | put key val =>
    obtain ⟨⟨n, hname⟩, hok⟩ := hx
    obtain ⟨u, hu, hk, -⟩ := GvName.nodeSubs hname
    obtain ⟨h1, -, h2⟩ := gvcstPut_spec { s with currkey := key } hR hu hk.base_eq (PutOk.valOk hk.base_eq hok)
    exact ⟨h2, h1⟩
  | kill key doSubtree inTp =>
    obtain ⟨n, hname⟩ := hx
    obtain ⟨u, hu, hk, -⟩ := GvName.nodeSubs hname
    cases doSubtree with
    | false =>
      obtain ⟨h1, -, h2⟩ := gvcstKill_node inTp { s with currkey := key } hR hu hk.base_eq
      exact ⟨h2, h1⟩
    | true =>
      obtain ⟨h1, -, h2⟩ := gvcstKill_subtree inTp { s with currkey := key } hR hu hk.base_eq
      exact ⟨h2, h1⟩

/-- A run of updates keeps the map. -/
theorem rep_foldl (hR : Rep env env.stdNullColl s.store A) (upds : List GvUpdate) (h : ∀ x ∈ upds, x.Valid env coll) :
    Rep env env.stdNullColl (upds.foldl (GvUpdate.run env) s).store (upds.foldl GvUpdate.apply A) := by
  induction upds generalizing s A with
  | nil => exact hR
  | cons x upds ih =>
    exact ih (rep_run hR x (h x (by simp))).1 fun y hy => h y (by simp [hy])

theorem rep_empty (env : GvEnv) (std : Bool) : Rep env std [] [] := ⟨sorted_nil, sorted_nil, by simp, by simp⟩

/-- A store that keeps a map answers as the map. -/
theorem transparent_of_rep (hR : Rep env env.stdNullColl s.store A) : Transparent env coll s A where
  get k n hname := by
    obtain ⟨u, hu, hk, -⟩ := GvName.nodeSubs hname
    exact gvcstGet_spec { s with currkey := k } hR hu hk.base_eq
  dataget k n hname dgInfo hinfo := by
    obtain ⟨u, hu, hk, -⟩ := GvName.nodeSubs hname
    exact gvcstDataget_spec { s with currkey := k } hR rfl hu hk.base_eq hinfo
  data k n hname := by
    obtain ⟨u, hu, hk, -⟩ := GvName.nodeSubs hname
    obtain ⟨h1, h2⟩ := gvcstData_spec { s with currkey := k } hR hu hk.base_eq
    exact ⟨h1, by rw [h2], by rw [h2]⟩
  order k n hname hn lastSubscNull key hkey hnull := by
    obtain ⟨u, hu, hk, hlen⟩ := GvName.nodeSubs hname
    obtain ⟨q, t, hq, ht, hb, hp⟩ := gvorderKey_spec hu (hlen ▸ hn) hk hnull
    rw [← hkey] at hb hp
    obtain ⟨h1, h2⟩ := gvcstOrder_spec { s with currkey := key } hR hq ht hb hp
    exact ⟨h1, by rw [h2], by rw [h2]⟩
  query k n hname lastSubscNull key hkey hnull := by
    obtain ⟨u, hu, hk, -⟩ := GvName.nodeSubs hname
    obtain ⟨w, hw, hb⟩ := gvqueryKey_spec hu hk hnull
    rw [← hkey] at hb
    obtain ⟨h1, h2⟩ := gvcstQuery_spec { s with currkey := key } hR hw hb
    exact ⟨h1, by rw [h2], by rw [h2]⟩
  restored x hx := (rep_run hR x hx).2
  exact e := hR.mem e

end SpanningNodesAux

open SpanningNodesAux

/-- After any run of sets and kills on an empty global, spanning nodes do not show. -/
theorem spanning_transparent (env : GvEnv) (coll : Collation) (s : GvState) (hs : s.store = []) (upds : List GvUpdate)
    (h : ∀ x ∈ upds, x.Valid env coll) :
    Transparent env coll (upds.foldl (GvUpdate.run env) s) (upds.foldl GvUpdate.apply []) := by
  refine transparent_of_rep (rep_foldl ?_ upds h)
  rw [hs]
  exact rep_empty env _

/-- Blocks of 512 bytes under standard null collation. -/
def smallBlocks : GvEnv := { blkSize := 512, reservedBytes := 0, stdNullColl := true, sscanf := fun _ => (0, 0) }

/-- The key of the node under the null subscript. -/
def nullKey : GvKey := { base := [0x41, 0, 1, 0], prev := 2, top := 1050 }

/-- A value of two chunks, a zero byte under the null subscript behind it, and the first one killed. -/
theorem spanning_transparent_two_chunks :
    Transparent smallBlocks {} ([GvUpdate.put nameKey (List.replicate 600 7), .put nullKey [0], .kill nameKey false false].foldl
      (GvUpdate.run smallBlocks) ⟨[], nameKey, nameKey⟩)
      ([GvUpdate.put nameKey (List.replicate 600 7), .put nullKey [0], .kill nameKey false false].foldl GvUpdate.apply []) := by
  have hname : GvName {} true nameKey 1 := .name (g := [0x41]) (by decide) (by decide) rfl rfl
  have hnull : GvName {} true nullKey 2 := by
    refine .subsc (v := Mval.ofStr []) hname (by decide) (.inr ?_) (by decide)
    decide
  refine spanning_transparent smallBlocks {} ⟨[], nameKey, nameKey⟩ rfl _ ?_
  intro x hx
  simp only [List.mem_cons, List.not_mem_nil, or_false] at hx
  rcases hx with rfl | rfl | rfl
  · exact ⟨⟨1, hname⟩, by decide, by rw [List.length_replicate]; decide, by rw [List.length_replicate]; decide⟩
  · exact ⟨⟨2, hnull⟩, by decide, by decide, by decide⟩
  · exact ⟨1, hname⟩

end Gtm
