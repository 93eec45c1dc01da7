import Gtm.Lemmas.SpanningStore

/-!
# Reads over spanning nodes

What `gvcst_get`, `gvcst_query`, `gvcst_order`, `gvcst_data` and `gvcst_dataget` answer on a store that keeps a map of whole
values: what the plain operations answer on the map.
-/

namespace Gtm

open SortedMap LexOrder Terminated

section
variable {env : GvEnv} {std : Bool} {S A : Store} {u : List (List UInt8)} {k : GvKey} {v : List UInt8}

/-! ### Values -/

theorem getNsbctrl_putNsbctrl (env : GvEnv) {numsubs gblsize : ℕ} (h1 : numsubs < 65536) (h2 : gblsize < 4294967296) :
    getNsbctrl env (putNsbctrl numsubs gblsize) = (numsubs, gblsize) := by
  simp only [putNsbctrl, getNsbctrl, UInt8.toNat_ofNat', Prod.mk.injEq]
  omega

/-- The chunks reach the end of the value. -/
theorem ValOk.length_le_chunks (hv : ValOk env u v) : v.length ≤ chunkCount env u v * chunkSize env u := by
  have hc := hv.size_pos
  have h1 := Nat.div_add_mod (v.length + chunkSize env u - 1) (chunkSize env u)
  have h2 := Nat.mod_lt (v.length + chunkSize env u - 1) hc
  rw [chunkCount, Nat.mul_comm]
  omega

theorem ValOk.getNsbctrl_eq (hv : ValOk env u v) :
    getNsbctrl env (putNsbctrl (chunkCount env u v) v.length) = (chunkCount env u v, v.length) := by
  have h1 := hv.count_lt
  have h2 := hv.length_le
  rw [maxStrlen] at h2
  exact getNsbctrl_putNsbctrl env (by omega) (by omega)

/-- A chunk goes on where the pieces before it end. -/
theorem take_append_chunk (env : GvEnv) (u : List (List UInt8)) (v : List UInt8) (i : ℕ) :
    v.take (i * chunkSize env u) ++ chunk env u v i = v.take ((i + 1) * chunkSize env u) := by
  rw [chunk, ← List.take_add, Nat.succ_mul]

section
variable (hR : Rep env std S A) (hu : NodeSubs std u)
include hR hu

theorem Rep.lookup_chunk (hA : (keyBytes u, v) ∈ A) (hfit : fits env u v = false)
    {i : ℕ} (hi : i < chunkCount env u v) : lookup (keyBytes (u ++ [chunkSub i])) S = some (chunk env u v i) := by
  rw [lookup_eq_some_iff hR.sorted, hR.mem_hidden hu (chunkSub_hidden (hi.trans (hR.valOk hu hA).count_lt))]
  exact ⟨v, hA, hfit, .inr ⟨i, hi, rfl, rfl⟩⟩

theorem Rep.lookup_control (hA : (keyBytes u, v) ∈ A) (hfit : fits env u v = false) :
    lookup (keyBytes (u ++ [controlSub])) S = some (putNsbctrl (chunkCount env u v) v.length) := by
  rw [lookup_eq_some_iff hR.sorted, hR.mem_hidden hu controlSub_hidden]
  exact ⟨v, hA, hfit, .inl ⟨rfl, rfl⟩⟩

theorem Rep.lookup_node :
    lookup (keyBytes u) S = (lookup (keyBytes u) A).map fun v => if fits env u v then v else nsbDummy := by
  cases hA : lookup (keyBytes u) A with
  | none =>
    rw [Option.map_none, lookup_eq_none_iff]
    intro e he heq
    obtain ⟨v, hv, -⟩ := (hR.mem_node hu (x := e.2)).1 (by rw [← heq]; exact he)
    exact lookup_eq_none_iff.1 hA _ hv rfl
  | some v =>
    rw [Option.map_some, lookup_eq_some_iff hR.sorted, hR.mem_node hu]
    exact ⟨v, (lookup_eq_some_iff hR.sorted_abs).1 hA, rfl⟩

/-- A node whose value fits has no control record. -/
theorem Rep.lookup_control_none (hA : (keyBytes u, v) ∈ A) (hfit : fits env u v = true) : lookup (keyBytes (u ++ [controlSub])) S = none := by
  rw [lookup_eq_none_iff]
  intro e he heq
  obtain ⟨w, hw, hwfit, -⟩ := (hR.mem_hidden hu controlSub_hidden (x := e.2)).1 (by rw [← heq]; exact he)
  obtain rfl : v = w := (Prod.ext_iff.1 (hR.sorted_abs.unique hA hw rfl)).2
  rw [hfit] at hwfit
  cases hwfit

/-- From chunk `i` on, the pieces add up to the value. -/
theorem getChunks_spec (hA : (keyBytes u, v) ∈ A) (hfit : fits env u v = false)
    (cnt i : ℕ) (hi : i + cnt = chunkCount env u v) (key : GvKey) (hkey : IsHiddenOf k u key) : ∃ key', IsHiddenOf k u key' ∧
      getChunks S v.length cnt i key (v.take (i * chunkSize env u)) = (v, chunkCount env u v, key') := by
  induction cnt generalizing i key with
  | zero =>
    have htake : v.take (i * chunkSize env u) = v := by
      rw [Nat.add_zero] at hi
      rw [hi]
      exact List.take_of_length_le (hR.valOk hu hA).length_le_chunks
    exact ⟨key, hkey, by rw [getChunks, htake, ← hi, Nat.add_zero]⟩
  | succ cnt ih =>
    have hget : gvcstGet2 S (nextHiddenSub key i) = some (chunk env u v i) := by
      rw [gvcstGet2, hkey.next_bytes]
      exact hR.lookup_chunk hu hA hfit (by omega)
    have hlen : ¬ v.length < (v.take ((i + 1) * chunkSize env u)).length := by
      rw [List.length_take]
      omega
    obtain ⟨key', hkey', heq⟩ := ih (i + 1) (by omega) _ (isHiddenOf_next hkey i)
    refine ⟨key', hkey', ?_⟩
    rw [getChunks, hget]
    dsimp only
    rw [take_append_chunk, if_neg hlen, heq]

end

/-- `gvcst_get` finds the whole value. -/
theorem gvcstGet_spec (s : GvState) (hR : Rep env std s.store A) (hu : NodeSubs std u) (hk : s.currkey.base = keyBase u) :
    gvcstGet env s = (some (lookup s.currkey.bytes A), s) := by
  have hbytes : s.currkey.bytes = keyBytes u := by rw [GvKey.bytes, hk, keyBytes]
  have hctl : (appendHiddenSub s.currkey).bytes = keyBytes (u ++ [controlSub]) := by
    rw [appendHiddenSub_eq hk]
    simp [GvKey.bytes, keyBytes]
  have hrestore := (isHiddenOf_append hk).restore hk hu.ne_nil
  simp only [gvcstGet, gvcstGet2, hbytes, hctl, hR.lookup_node hu]
  cases hA : lookup (keyBytes u) A with
  | none => rfl
  | some v =>
    have hA' := (lookup_eq_some_iff hR.sorted_abs).1 hA
    have hv := hR.valOk hu hA'
    cases hfit : fits env u v with
    | true =>
      simp only [Option.map_some, hfit, if_true, hR.lookup_control_none hu hA' hfit, hrestore]
      split <;> rfl
    | false =>
      obtain ⟨key', hkey', heq⟩ := getChunks_spec hR hu hA' hfit _ 0 (Nat.zero_add _) _ (isHiddenOf_append hk)
      rw [Nat.zero_mul, List.take_zero] at heq
      have hdummy : isSnDummy nsbDummy = true := rfl
      simp only [Option.map_some, hfit, Bool.false_eq_true, if_false, hdummy, hR.lookup_control hu hA' hfit, hv.getNsbctrl_eq, heq,
        ne_eq, not_true_eq_false, or_self, hkey'.restore hk hu.ne_nil, Bool.true_eq_false]

/-! ### The next record -/

/-- The keys of the map are keys of the store. -/
theorem Rep.key_mem (hR : Rep env std S A) {e : List UInt8 × List UInt8} (he : e ∈ A) :
    ∃ z x, NodeSubs std z ∧ e.1 = keyBytes z ∧ (keyBytes z, x) ∈ S := by
  obtain ⟨z, hz, heq, -⟩ := hR.nodes e he
  refine ⟨z, _, hz, heq, (hR.mem_node hz).2 ⟨e.2, ?_, rfl⟩⟩
  rw [← heq]
  exact he

variable {w y q : List (List UInt8)} {h t : List UInt8} {m : Store} {dgInfo : DgInfo}

/-- The next record of the store is none, that of the next node of the map, or a hidden one of a node before. -/
theorem Rep.next_cases (hR : Rep env std S A) (hw : Free keyDelimiter w) : (next (keyBytes w) S = none ∧ next (keyBytes w) A = none) ∨
    (∃ y x v, NodeSubs std y ∧ next (keyBytes w) S = some (keyBytes y, x) ∧ next (keyBytes w) A = some (keyBytes y, v)) ∨
    (∃ y h x, NodeSubs std y ∧ HiddenSub h ∧ next (keyBytes w) S = some (keyBytes (y ++ [h]), x) ∧ y < w ∧ w ≤ y ++ [h]) := by
  cases hn : next (keyBytes w) S with
  | none =>
    refine .inl ⟨rfl, next_eq_none_iff.2 ?_⟩
    intro e he
    obtain ⟨z, x, -, heq, hx⟩ := hR.key_mem he
    rw [heq]
    exact next_eq_none_iff.1 hn _ hx
  | some e =>
    obtain ⟨he, hle, hleast⟩ := (next_eq_some_iff hR.sorted).1 hn
    obtain ⟨y, v, hy, hA, ho⟩ := hR.owned he
    rcases ho with ho | ⟨h, hh, ho⟩
    · refine .inr (.inl ⟨y, e.2, v, hy, by rw [← ho], (next_eq_some_iff hR.sorted_abs).2 ⟨hA, ho ▸ hle, ?_⟩⟩)
      intro a ha hwa
      obtain ⟨z, x, -, heq, hx⟩ := hR.key_mem ha
      rw [heq] at hwa ⊢
      rw [← ho]
      exact hleast _ hx hwa
    · refine .inr (.inr ⟨y, h, e.2, hy, hh, by rw [← ho], ?_, ?_⟩)
      · -- the dummy record of the node stands before the hidden one
        obtain ⟨x, hx⟩ : ∃ x, (keyBytes y, x) ∈ S := ⟨_, (hR.mem_node hy).2 ⟨v, hA, rfl⟩⟩
        rw [← keyBytes_lt_iff hy.free hw, ← not_le]
        intro hwy
        have hyh : y < y ++ [h] := lt_append_cons y h []
        have := hleast _ hx hwy
        rw [ho, keyBytes_le_iff (hy.hidden_free hh) hy.free] at this
        exact absurd hyh (not_lt.2 this)
      · rw [← keyBytes_le_iff hw (hy.hidden_free hh), ← ho]
        exact hle

/-- The key behind all hidden ones of a node that `REPLACE_HIDDEN_SUB_TO_HIGHEST` makes. -/
def highestSub : List UInt8 := [2, 0xFF, 0xFF, 1]

theorem free_highest (hu : NodeSubs std u) : Free keyDelimiter (u ++ [highestSub]) :=
  Free.concat hu.free (by simp [highestSub]) (by decide)

theorem HiddenSub.lt_highestSub (hh : HiddenSub h) : h < highestSub := hh.lt_highest.trans (by decide)

theorem next_congr {a b : List UInt8} (h : ∀ e ∈ m, a ≤ e.1 ↔ b ≤ e.1) : next a m = next b m := by
  unfold next
  induction m with
  | nil => rfl
  | cons e m ih =>
    have he : decide (a ≤ e.1) = decide (b ≤ e.1) := decide_eq_decide.2 (h e (by simp))
    rw [List.find?_cons, List.find?_cons, he, ih fun x hx => h x (by simp [hx])]

/-- Behind a hidden record the search goes on from the end of the hidden records. -/
theorem Rep.next_skip (hR : Rep env std S A) {x : List UInt8} (hy : NodeSubs std y)
    (hh : HiddenSub h) (hn : next (keyBytes w) S = some (keyBytes (y ++ [h]), x)) :
    next (keyBytes w) A = next (keyBytes (y ++ [highestSub])) A := by
  obtain ⟨-, hle, hleast⟩ := (next_eq_some_iff hR.sorted).1 hn
  refine next_congr fun e he => ?_
  obtain ⟨z, x', hz, heq, hx'⟩ := hR.key_mem he
  rw [heq]
  constructor
  · intro hwz
    have hhz := hleast _ hx' hwz
    rw [keyBytes_le_iff (hy.hidden_free hh) hz.free] at hhz
    rw [keyBytes_le_iff (free_highest hy) hz.free, ← not_lt]
    intro hlt
    obtain ⟨r, rest, rfl, hr1, hr2⟩ := exists_of_range hhz hlt
    obtain ⟨c, rfl⟩ := hh.cons
    exact (NodeSubs.sub_of_append hy.ne_nil hz).not_between hr1 hr2.le
  · intro hz'
    have hlt : y ++ [h] < y ++ [highestSub] := by
      rw [append_left_lt_iff, List.cons_lt_cons_iff]
      exact .inl hh.lt_highestSub
    exact hle.trans (((keyBytes_lt_iff (hy.hidden_free hh) (free_highest hy)).2 hlt).le.trans hz')

/-- A hidden record found from there on belongs to a node with fewer subscripts. -/
theorem Rep.next_hidden_shorter (hR : Rep env std S A) {y' : List (List UInt8)} {h' x : List UInt8} (hy : NodeSubs std y)
    (hy' : NodeSubs std y') (hh' : HiddenSub h') (hn : next (keyBytes (y ++ [highestSub])) S = some (keyBytes (y' ++ [h']), x)) :
    y'.length < y.length := by
  rcases hR.next_cases (free_highest hy) with ⟨h0, -⟩ | ⟨z, c, d, hz, h0, -⟩ | ⟨z, g, c, hz, hg, h0, hlt, hle⟩
  · rw [hn] at h0
    cases h0
  · rw [hn] at h0
    have := (Prod.ext_iff.1 (Option.some.inj h0)).1
    exact absurd ((keyBytes_inj (hy'.hidden_free hh') hz.free).1 this).symm (hz.ne_hidden hy'.ne_nil hh')
  · rw [hn] at h0
    have heq := (keyBytes_inj (hy'.hidden_free hh') (hz.hidden_free hg)).1 (Prod.ext_iff.1 (Option.some.inj h0)).1
    obtain ⟨rfl, hgh⟩ := List.append_inj' heq rfl
    obtain rfl : h' = g := by simpa using hgh
    obtain ⟨r, rest, hr, hrh⟩ := exists_of_between hlt hle
    cases rest with
    | nil =>
      obtain ⟨rfl, hr'⟩ := List.append_inj' hr rfl
      obtain rfl : highestSub = r := by simpa using hr'
      exact absurd hrh (not_le.2 hh'.lt_highestSub)
    | cons a rest =>
      have := congrArg List.length hr
      simp only [List.length_append, List.length_cons, List.length_nil] at this
      omega

theorem replaceHiddenSubToHighest_eq (altkey : GvKey) (hh : HiddenSub h)
    (hk : k.base = keyBase w) (ha : altkey.base = keyBase (y ++ [h])) (hp : y <+: w) :
    replaceHiddenSubToHighest altkey k = { k with base := keyBase (y ++ [highestSub]) } := by
  obtain ⟨a, b, rfl, -, -⟩ := hh.shape
  obtain ⟨z, rfl⟩ := hp
  have hlen : altkey.kend - 4 = (keyBase y).length := by simp [GvKey.kend, ha]
  simp [replaceHiddenSubToHighest, hlen, hk, highestSub]

/-! ### The next key -/

/-- Two searches found the same, and the same key where they found one. -/
def SameFound (r r' : Bool × GvKey) : Prop := r.1 = r'.1 ∧ (r.1 = true → r.2.base = r'.2.base)

theorem SameFound.trans {a b c : Bool × GvKey} (h1 : SameFound a b) (h2 : SameFound b c) : SameFound a c :=
  ⟨h1.1.trans h2.1, fun h => (h1.2 h).trans (h2.2 (h1.1 ▸ h))⟩

/-- What was in `gv_altkey` before does not count. -/
theorem gvcstQuery2_altkey (m : Store) (key a b : GvKey) : SameFound (gvcstQuery2 m key a) (gvcstQuery2 m key b) := by
  simp only [gvcstQuery2]
  split <;> simp [SameFound]

theorem prefix_of_hidden_next (h1 : y < w) (h2 : w ≤ y ++ [h]) : y <+: w := by
  obtain ⟨r, -, rfl, -⟩ := exists_of_between h1 h2
  exact List.prefix_append _ _

theorem queryLoop_spec (hR : Rep env std S A) (cnt : ℕ) (w : List (List UInt8)) (hw : Free keyDelimiter w) (key altkey : GvKey)
    (hk : key.base = keyBase w) (hpos : 0 < cnt)
    (hcnt : ∀ y h x, NodeSubs std y → HiddenSub h → next (keyBytes w) S = some (keyBytes (y ++ [h]), x) → y.length < cnt) :
    SameFound (queryLoop S cnt key altkey) (gvcstQuery2 A key altkey) := by
  induction cnt generalizing w key altkey with
  | zero => omega
  | succ cnt ih =>
    have hbytes : key.bytes = keyBytes w := by rw [GvKey.bytes, hk, keyBytes]
    rw [queryLoop]
    rcases hR.next_cases hw with ⟨h1, h2⟩ | ⟨y, x, v, hy, h1, h2⟩ | ⟨y, h, x, hy, hh, h1, hlt, hle⟩
    · simp [gvcstQuery2, hbytes, h1, h2, SameFound]
    · have hvis : checkHiddenSubscript { altkey with base := (keyBytes y).dropLast } = false :=
        checkHiddenSubscript_node hy (by simp [keyBytes])
      simp [gvcstQuery2, hbytes, h1, h2, hvis, SameFound]
    · have hhid : checkHiddenSubscript { altkey with base := (keyBytes (y ++ [h])).dropLast } = true :=
        checkHiddenSubscript_hidden hy.ne_nil hh (by simp [keyBytes])
      have hrep := replaceHiddenSubToHighest_eq { altkey with base := (keyBytes (y ++ [h])).dropLast } hh hk
        (by simp [keyBytes]) (prefix_of_hidden_next hlt hle)
      have hylen := hcnt y h x hy hh h1
      have hypos : 0 < y.length := List.length_pos_iff.2 hy.ne_nil
      have hrec := ih (y ++ [highestSub]) (free_highest hy) { key with base := keyBase (y ++ [highestSub]) }
        { altkey with base := (keyBytes (y ++ [h])).dropLast } rfl (by omega)
        (fun y' h' x' hy' hh' hn => by have := hR.next_hidden_shorter hy hy' hh' hn; omega)
      have hq : gvcstQuery2 A key altkey = gvcstQuery2 A { key with base := keyBase (y ++ [highestSub]) } altkey := by
        simp only [gvcstQuery2, hbytes, hR.next_skip hy hh h1]
        rfl
      have hstep : gvcstQuery2 S key altkey = (true, { altkey with base := (keyBytes (y ++ [h])).dropLast }) := by
        simp [gvcstQuery2, hbytes, h1]
      rw [hstep]
      simp only [hhid, hrep, Bool.true_eq_false, or_self, if_false]
      rw [hq]
      exact hrec.trans (gvcstQuery2_altkey _ _ _ _)

/-- `gvcst_query` finds the next key of the map. -/
theorem gvcstQuery_spec (s : GvState) (hR : Rep env std s.store A) (hw : Free keyDelimiter w) (hk : s.currkey.base = keyBase w) :
    SameFound ((gvcstQuery s).1, (gvcstQuery s).2.altkey) (gvcstQuery2 A s.currkey s.altkey) ∧
      (gvcstQuery s).2 = { s with altkey := (gvcstQuery s).2.altkey } := by
  have hbytes : s.currkey.bytes = keyBytes w := by rw [GvKey.bytes, hk, keyBytes]
  simp only [gvcstQuery]
  rcases hR.next_cases hw with ⟨h1, h2⟩ | ⟨y, x, v, hy, h1, h2⟩ | ⟨y, h, x, hy, hh, h1, -, hle⟩
  · simp [gvcstQuery2, hbytes, h1, h2, SameFound]
  · have hvis : checkHiddenSubscript { s.altkey with base := (keyBytes y).dropLast } = false :=
      checkHiddenSubscript_node hy (by simp [keyBytes])
    simp [gvcstQuery2, hbytes, h1, h2, hvis, SameFound]
  · have hhid : checkHiddenSubscript { s.altkey with base := (keyBytes (y ++ [h])).dropLast } = true :=
      checkHiddenSubscript_hidden hy.ne_nil hh (by simp [keyBytes])
    have hstep : gvcstQuery2 s.store s.currkey s.altkey = (true, { s.altkey with base := (keyBytes (y ++ [h])).dropLast }) := by
      simp [gvcstQuery2, hbytes, h1]
    rw [hstep]
    simp only [hhid, Bool.true_eq_false, or_self, if_false]
    have hloop := queryLoop_spec hR (maxGvsubscripts + 1) w hw s.currkey { s.altkey with base := (keyBytes (y ++ [h])).dropLast }
      hk (by decide) (fun y' h' x' hy' _ _ => Nat.lt_succ_of_le hy'.count)
    exact ⟨hloop.trans (gvcstQuery2_altkey _ _ _ _), trivial⟩

/-! ### The next subscript -/

/-- The last subscript of the key `$ORDER` searches with: a subscript incremented, or the byte below all subscripts. -/
def OrderSub (std : Bool) (t : List UInt8) : Prop := (∃ s, SubBytes std s ∧ t = s ++ [1]) ∨ (t = [1] ∧ std = false)

theorem OrderSub.pos (ht : OrderSub std t) : t ≠ [] ∧ ∀ x ∈ t, keyDelimiter < x := by
  rcases ht with ⟨s, hs, rfl⟩ | ⟨rfl, -⟩
  · refine ⟨by simp, ?_⟩
    intro x hx
    rcases List.mem_append.1 hx with hx | hx
    · exact hs.pos x hx
    · rw [List.mem_singleton.1 hx]
      decide
  · refine ⟨by simp, ?_⟩
    intro x hx
    rw [List.mem_singleton.1 hx]
    decide

theorem OrderSub.free (ht : OrderSub std t) (hu : NodeSubs std u) : Free keyDelimiter (u ++ [t]) := by
  refine hu.free.append ?_
  intro r hr
  rw [List.mem_singleton.1 hr]
  exact ht.pos

/-- The search key is not that of a node. -/
theorem OrderSub.ne_subBytes {r : List UInt8} (ht : OrderSub std t) (hr : SubBytes std r) : r ≠ t := by
  rintro rfl
  rcases ht with ⟨s, hs, rfl⟩ | ⟨rfl, hstd⟩
  · rcases hr.ones with h1 | heven
    · exact hs.ne_nil (by simpa using h1)
    · rcases hs.ones with rfl | heven'
      · have := (hr.null rfl).1
        simp at this
      · have hsucc : trailingOnes (s ++ [1]) = trailingOnes s + 1 := by simp [trailingOnes]
        rw [hsucc, Nat.even_add_one] at heven
        exact heven heven'
  · have := (hr.null rfl).2
    rw [hstd] at this
    cases this

theorem OrderSub.ne_hidden (ht : OrderSub std t) (hh : HiddenSub h) : h ≠ t := by
  obtain ⟨z, rfl⟩ := hh.cons
  rintro rfl
  rcases ht with ⟨s, hs, heq⟩ | ⟨heq, -⟩
  · cases s with
    | nil => exact hs.ne_nil rfl
    | cons x s =>
      have h2 : (2 : UInt8) = x := by simpa using congrArg List.head? heq
      exact hs.head_ne (by simp [h2])
  · simp at heq

/-- A search from behind the subscripts of `q` found a record with them. -/
theorem gvcstOrder2_found (m : Store) (key altkey : GvKey) {x : List UInt8}
    (hk : key.base = keyBase (q ++ [t])) (hprev : key.prev = (keyBase q).length) (hn : next key.bytes m = some (keyBytes y, x))
    (hq : Free keyDelimiter q) (hy : Free keyDelimiter y) : (gvcstOrder2 m key altkey).1 = true ↔ q <+: y := by
  have hp : keyBase q <+: key.bytes := by
    rw [GvKey.bytes, hk, keyBase_append, List.append_assoc]
    exact List.prefix_append _ _
  simp only [gvcstOrder2, hn, hprev, decide_eq_true_eq]
  rw [le_matchLen_iff hp, keyBase_prefix_iff hq hy]

/-- The key found is cut behind the subscript at the level of the search. -/
theorem gvcstOrder2_altkey_base (m : Store) (key altkey : GvKey) {rest : List (List UInt8)} {r x : List UInt8}
    (hk : key.base = keyBase (q ++ [t])) (hn : next key.bytes m = some (keyBytes (q ++ r :: rest), x)) (hr : keyDelimiter ∉ r)
    (ht : keyDelimiter ∉ t) (hne : r ≠ t) : (gvcstOrder2 m key altkey).2.base = keyBase (q ++ [r]) := by
  have hb : key.bytes = keyBase q ++ t ++ keyDelimiter :: [keyDelimiter] := by simp [GvKey.bytes, hk]
  have hx : keyBytes (q ++ r :: rest) = keyBase q ++ r ++ keyDelimiter :: keyBytes rest := by simp [keyBytes]
  have hp : keyBase q <+: key.bytes := by
    rw [hb, List.append_assoc]
    exact List.prefix_append _ _
  have hp' : keyBase q <+: keyBytes (q ++ r :: rest) := by
    rw [hx, List.append_assoc]
    exact List.prefix_append _ _
  simp only [gvcstOrder2, hn]
  rw [hx, truncAfter_eq hr]
  · simp
  · rw [le_matchLen_iff hp, ← hx]
    exact hp'
  · rw [hb]
    exact matchLen_le hr ht hne

theorem NodeSubs.of_prefix (hw : NodeSubs std w) (hu : u ≠ []) (hp : u <+: w) : NodeSubs std u := by
  obtain ⟨z, rfl⟩ := hp
  refine ⟨hu, hw.free.of_prefix (List.prefix_append _ _), ?_, ?_⟩
  · intro s hs
    refine hw.subs s ?_
    rw [List.tail_append_of_ne_nil hu]
    exact List.mem_append_left _ hs
  · have := hw.count
    rw [List.length_append] at this
    omega

/-- A list with the beginning `q` that is not before `q` with a subscript more goes on behind `q`. -/
theorem exists_of_prefix_le (hp : q <+: y) (hle : q ++ [t] ≤ y) : ∃ r rest, y = q ++ r :: rest := by
  obtain ⟨z, rfl⟩ := hp
  rw [append_left_le_iff] at hle
  cases z with
  | nil => exact absurd hle (not_le.2 (List.nil_lt_cons _ _))
  | cons r rest => exact ⟨r, rest, rfl⟩

/-- Where the search does not meet a hidden record of its own level, store and map answer alike. -/
theorem Rep.order2 (hR : Rep env std S A) (hq : NodeSubs std q)
    (ht : Free keyDelimiter (q ++ [t])) (hne : ∀ r, SubBytes std r → r ≠ t) (key altkey : GvKey)
    (hk : key.base = keyBase (q ++ [t])) (hprev : key.prev = (keyBase q).length)
    (hhid : ∀ h x, HiddenSub h → next key.bytes S ≠ some (keyBytes (q ++ [h]), x)) :
    SameFound (gvcstOrder2 S key altkey) (gvcstOrder2 A key altkey) ∧
      ((gvcstOrder2 S key altkey).1 = true → checkHiddenSubscript (gvcstOrder2 S key altkey).2 = false) := by
  have hbytes : key.bytes = keyBytes (q ++ [t]) := by rw [GvKey.bytes, hk, keyBytes]
  rcases hR.next_cases ht with ⟨h1, h2⟩ | ⟨y, x, v, hy, h1, h2⟩ | ⟨y, h, x, hy, hh, h1, hlt, hle⟩
  · simp [gvcstOrder2, hbytes, h1, h2, SameFound]
  · rw [← hbytes] at h1 h2
    refine ⟨by simp [gvcstOrder2, h1, h2, SameFound], ?_⟩
    intro hf
    have hp := (gvcstOrder2_found S key altkey hk hprev h1 hq.free hy.free).1 hf
    have hle := ((next_eq_some_iff hR.sorted).1 h1).2.1
    rw [hbytes, keyBytes_le_iff ht hy.free] at hle
    obtain ⟨r, rest, rfl⟩ := exists_of_prefix_le hp hle
    have hr := NodeSubs.sub_of_append hq.ne_nil hy
    have hqr : NodeSubs std (q ++ [r]) := hy.of_prefix (by simp) ⟨rest, by simp⟩
    refine checkHiddenSubscript_node hqr ?_
    exact gvcstOrder2_altkey_base S key altkey hk h1 (not_mem_of_lt hr.pos) (not_mem_of_lt (ht t (by simp)).2) (hne r hr)
  · rw [← hbytes] at h1
    -- the hidden record belongs to a node above the level of the search
    have hnp : ¬ q <+: y ++ [h] := by
      intro hp
      obtain ⟨z, rfl⟩ := hq.prefix_of_hidden hy.ne_nil hh hp
      cases z with
      | nil => exact hhid h x hh (by simpa using h1)
      | cons r rest =>
        rw [append_left_lt_iff, List.cons_lt_cons_iff] at hlt
        rw [List.append_assoc, append_left_le_iff, List.cons_append, cons_le_cons_iff] at hle
        rcases hlt with hlt | ⟨-, hlt⟩
        · rcases hle with hle | ⟨hle, -⟩
          · exact hlt.asymm hle
          · exact hlt.ne' hle
        · exact List.not_lt_nil _ hlt
    have hS : (gvcstOrder2 S key altkey).1 = false := by
      rw [Bool.eq_false_iff, ne_eq, gvcstOrder2_found S key altkey hk hprev h1 hq.free (hy.hidden_free hh)]
      exact hnp
    have hA : (gvcstOrder2 A key altkey).1 = false := by
      cases hn : next key.bytes A with
      | none => simp [gvcstOrder2, hn]
      | some e =>
        obtain ⟨he, hwe, -⟩ := (next_eq_some_iff hR.sorted_abs).1 hn
        obtain ⟨z, x', hz, heq, hx'⟩ := hR.key_mem he
        obtain ⟨-, -, hleast⟩ := (next_eq_some_iff hR.sorted).1 h1
        rw [show e = (keyBytes z, e.2) by rw [← heq]] at hn
        rw [Bool.eq_false_iff, ne_eq, gvcstOrder2_found A key altkey hk hprev hn hq.free hz.free]
        rintro ⟨c, rfl⟩
        rw [heq] at hwe
        have := hleast _ hx' hwe
        rw [keyBytes_le_iff (hy.hidden_free hh) hz.free] at this
        exact hnp (prefix_of_between (p := q) [t] c hle this)
    refine ⟨⟨hS.trans hA.symm, ?_⟩, ?_⟩ <;>
    · intro hf
      rw [hS] at hf
      cases hf

/-- On the map two searches behind the same subscripts that meet the same record answer alike. -/
theorem Rep.order2_same_next (hR : Rep env std S A) (hq : NodeSubs std q) {t' : List UInt8}
    (ht : Free keyDelimiter (q ++ [t])) (ht' : Free keyDelimiter (q ++ [t'])) (hne : ∀ r, SubBytes std r → r ≠ t ∧ r ≠ t')
    (key key' a b : GvKey) (hk : key.base = keyBase (q ++ [t])) (hk' : key'.base = keyBase (q ++ [t']))
    (hprev : key.prev = (keyBase q).length) (hprev' : key'.prev = (keyBase q).length)
    (hn : next key.bytes A = next key'.bytes A) : SameFound (gvcstOrder2 A key a) (gvcstOrder2 A key' b) := by
  cases hA : next key.bytes A with
  | none =>
    have hA' := hn.symm.trans hA
    simp [gvcstOrder2, hA, hA', SameFound]
  | some e =>
    obtain ⟨he, hle, -⟩ := (next_eq_some_iff hR.sorted_abs).1 hA
    obtain ⟨z, -, hz, heq, -⟩ := hR.key_mem he
    have hez : e = (keyBytes z, e.2) := by rw [← heq]
    rw [hez] at hA
    have hA' := hn.symm.trans hA
    have hf := gvcstOrder2_found A key a hk hprev hA hq.free hz.free
    have hf' := gvcstOrder2_found A key' b hk' hprev' hA' hq.free hz.free
    refine ⟨Bool.eq_iff_iff.2 (hf.trans hf'.symm), ?_⟩
    intro hfound
    rw [heq, GvKey.bytes, hk] at hle
    change keyBytes (q ++ [t]) ≤ keyBytes z at hle
    rw [keyBytes_le_iff ht hz.free] at hle
    obtain ⟨r, rest, rfl⟩ := exists_of_prefix_le (hf.1 hfound) hle
    have hr := NodeSubs.sub_of_append hq.ne_nil hz
    rw [gvcstOrder2_altkey_base A key a hk hA (not_mem_of_lt hr.pos) (not_mem_of_lt (ht t (by simp)).2) (hne r hr).1,
      gvcstOrder2_altkey_base A key' b hk' hA' (not_mem_of_lt hr.pos) (not_mem_of_lt (ht' t' (by simp)).2) (hne r hr).2]

/-- `gvcst_order` finds the next subscript of the map. -/
theorem gvcstOrder_spec (s : GvState) (hR : Rep env std s.store A) (hq : NodeSubs std q)
    (ht : OrderSub std t) (hk : s.currkey.base = keyBase (q ++ [t])) (hprev : s.currkey.prev = (keyBase q).length) :
    SameFound ((gvcstOrder s).1, (gvcstOrder s).2.altkey) (gvcstOrder2 A s.currkey s.altkey) ∧
      (gvcstOrder s).2 = { s with altkey := (gvcstOrder s).2.altkey } := by
  have hbytes : s.currkey.bytes = keyBytes (q ++ [t]) := by rw [GvKey.bytes, hk, keyBytes]
  by_cases hhid : ∀ h x, HiddenSub h → next s.currkey.bytes s.store ≠ some (keyBytes (q ++ [h]), x)
  · obtain ⟨hsame, hvis⟩ := hR.order2 hq (ht.free hq) (fun r hr => ht.ne_subBytes hr) s.currkey s.altkey hk hprev hhid
    have hstop : (gvcstOrder2 s.store s.currkey s.altkey).1 = false ∨
        checkHiddenSubscript (gvcstOrder2 s.store s.currkey s.altkey).2 = false := by
      cases hf : (gvcstOrder2 s.store s.currkey s.altkey).1 with
      | false => exact .inl rfl
      | true => exact .inr (hvis hf)
    have hst : gvcstOrder s = ((gvcstOrder2 s.store s.currkey s.altkey).1,
        { s with altkey := (gvcstOrder2 s.store s.currkey s.altkey).2 }) := by
      simp only [gvcstOrder]
      rw [if_pos hstop]
    rw [hst]
    exact ⟨hsame, rfl⟩
  · push Not at hhid
    obtain ⟨h, x, hh, hn⟩ := hhid
    have hfree := hq.hidden_free hh
    have hfound : (gvcstOrder2 s.store s.currkey s.altkey).1 = true :=
      (gvcstOrder2_found s.store s.currkey s.altkey hk hprev hn hq.free hfree).2 (List.prefix_append _ _)
    have halt : (gvcstOrder2 s.store s.currkey s.altkey).2.base = keyBase (q ++ [h]) :=
      gvcstOrder2_altkey_base s.store s.currkey s.altkey hk hn (not_mem_of_lt (hfree h (by simp)).2)
        (not_mem_of_lt ht.pos.2) (ht.ne_hidden hh)
    have hgo : ¬ ((gvcstOrder2 s.store s.currkey s.altkey).1 = false ∨
        checkHiddenSubscript (gvcstOrder2 s.store s.currkey s.altkey).2 = false) := by
      rw [hfound, checkHiddenSubscript_hidden hq.ne_nil hh halt]
      simp
    -- the second search, from the end of the hidden records on
    obtain ⟨key, hkey⟩ : ∃ key : GvKey, key = { s.currkey with base := keyBase (q ++ [highestSub]) } := ⟨_, rfl⟩
    have hrep : replaceHiddenSubToHighest (gvcstOrder2 s.store s.currkey s.altkey).2 s.currkey = key :=
      (replaceHiddenSubToHighest_eq _ hh hk halt (List.prefix_append q [t])).trans hkey.symm
    have hkb : key.base = keyBase (q ++ [highestSub]) := by rw [hkey]
    have hkp : key.prev = (keyBase q).length := by rw [hkey, ← hprev]
    have hkbytes : key.bytes = keyBytes (q ++ [highestSub]) := by rw [GvKey.bytes, hkb, keyBytes]
    have hsub : ∀ r, SubBytes std r → r ≠ highestSub := by
      rintro r hr rfl
      exact hr.head_ne rfl
    have hsecond := hR.order2 hq (free_highest hq) hsub key (gvcstOrder2 s.store s.currkey s.altkey).2 hkb hkp
      (fun h' x' hh' hn' => absurd (hR.next_hidden_shorter hq hq hh' (hkbytes ▸ hn')) (lt_irrefl _))
    have hnext : next key.bytes A = next s.currkey.bytes A := by
      rw [hbytes] at hn
      rw [hkbytes, hbytes, hR.next_skip hq hh hn]
    have hA := hR.order2_same_next hq (free_highest hq) (ht.free hq) (fun r hr => ⟨hsub r hr, ht.ne_subBytes hr⟩) key s.currkey
      (gvcstOrder2 s.store s.currkey s.altkey).2 s.altkey hkb hk hkp hprev hnext
    obtain ⟨base, hbase⟩ : ∃ base, base = key.base.take s.currkey.prev ++ s.currkey.base.drop s.currkey.prev := ⟨_, rfl⟩
    have hback : ({ key with prev := s.currkey.prev, base := base } : GvKey) = s.currkey := by
      have hb : key.base.take s.currkey.prev ++ s.currkey.base.drop s.currkey.prev = s.currkey.base := by
        rw [hkb, hprev, hk, keyBase_append, keyBase_append, List.take_left, List.drop_left]
      rw [hbase, hb, hkey]
    have hst : gvcstOrder s = ((gvcstOrder2 s.store key (gvcstOrder2 s.store s.currkey s.altkey).2).1,
        { s with altkey := (gvcstOrder2 s.store key (gvcstOrder2 s.store s.currkey s.altkey).2).2 }) := by
      simp only [gvcstOrder]
      rw [if_neg hgo, hrep, ← hbase, hback]
    rw [hst]
    exact ⟨hsecond.1.trans hA, rfl⟩

/-! ### Existence -/

/-- There is a record behind `x` that begins with `p`. -/
def hasBehind (m : Store) (x p : List UInt8) : Bool := m.any fun e => decide (x < e.1) && p.isPrefixOf e.1

theorem hasBehind_iff {x p : List UInt8} : hasBehind m x p = true ↔ ∃ e ∈ m, x < e.1 ∧ p <+: e.1 := by
  simp [hasBehind]

/-- The existence code asks for the record and for one behind it with the beginning. -/
theorem dollarData_eq (hm : Sorted m) {p : List UInt8} {delta : ℕ} (hp : p <+: k.bytes)
    (hlen : p.length + delta = k.kend) :
    dollarData m k delta = (if (lookup k.bytes m).isSome then 1 else 0) + if hasBehind m k.bytes p then 10 else 0 := by
  rw [dollarData]
  congr 1
  cases ha : after k.bytes m with
  | none =>
    have : ¬ hasBehind m k.bytes p = true := by
      rw [hasBehind_iff]
      rintro ⟨e, he, hlt, -⟩
      exact absurd (after_eq_none_iff.1 ha e he) (not_le.2 hlt)
    rw [if_neg this]
  | some e =>
    obtain ⟨he, hlt, hleast⟩ := (after_eq_some_iff hm).1 ha
    have hcond : k.kend ≤ matchLen k.bytes e.1 + delta ↔ hasBehind m k.bytes p = true := by
      rw [← hlen, Nat.add_le_add_iff_right, le_matchLen_iff hp, hasBehind_iff]
      constructor
      · intro hpe
        exact ⟨e, he, hlt, hpe⟩
      · rintro ⟨a, ha, hka, ⟨c, hc⟩⟩
        obtain ⟨d, hd⟩ := hp
        exact prefix_of_between (p := p) d c (by rw [hd]; exact hlt.le) (by rw [hc]; exact hleast a ha hka)
    dsimp only
    by_cases h : hasBehind m k.bytes p = true
    · rw [if_pos h, if_pos (hcond.2 h)]
    · rw [if_neg h, if_neg fun h' => h (hcond.1 h')]

theorem keyBase_prefix_bytes (hk : k.base = keyBase u) : keyBase u <+: k.bytes := by
  rw [GvKey.bytes, hk]
  exact List.prefix_append _ _

/-- The records of the map behind a list of subscripts that begin with another. -/
theorem Rep.hasBehind_abs_iff (hR : Rep env std S A) {x : List (List UInt8)} (hx : Free keyDelimiter x)
    (hy : Free keyDelimiter y) : hasBehind A (keyBytes x) (keyBase y) = true ↔
      ∃ z v, NodeSubs std z ∧ (keyBytes z, v) ∈ A ∧ x < z ∧ y <+: z := by
  rw [hasBehind_iff]
  constructor
  · rintro ⟨e, he, hlt, hp⟩
    obtain ⟨z, hz, heq, -⟩ := hR.nodes e he
    rw [heq] at hlt hp
    exact ⟨z, e.2, hz, by rw [← heq]; exact he, (keyBytes_lt_iff hx hz.free).1 hlt, (keyBase_prefix_iff hy hz.free).1 hp⟩
  · rintro ⟨z, v, hz, hA, hlt, hp⟩
    exact ⟨_, hA, (keyBytes_lt_iff hx hz.free).2 hlt, (keyBase_prefix_iff hy hz.free).2 hp⟩

/-- The records of the store behind a list of subscripts that begin with a node's are those of nodes there, unless they are
hidden ones of the node itself. -/
theorem Rep.hasBehind_iff (hR : Rep env std S A) {x : List (List UInt8)} (hx : Free keyDelimiter x) (hy : y ≠ [])
    (hyf : Free keyDelimiter y) (hhead : ∀ r ∈ y.tail, r.head? ≠ some 2)
    (hself : ∀ h x', HiddenSub h → (keyBytes (y ++ [h]), x') ∈ S → ¬ x < y ++ [h])
    (hup : ∀ z h, NodeSubs std z → HiddenSub h → y <+: z → y ≠ z → x < z ++ [h] → x < z) :
    hasBehind S (keyBytes x) (keyBase y) = true ↔ ∃ z v, NodeSubs std z ∧ (keyBytes z, v) ∈ A ∧ x < z ∧ y <+: z := by
  rw [Gtm.hasBehind_iff]
  constructor
  · rintro ⟨e, he, hlt, hp⟩
    obtain ⟨z, v, hz, hA, ho⟩ := hR.owned he
    rcases ho with ho | ⟨h, hh, ho⟩
    · rw [ho] at hlt hp
      exact ⟨z, v, hz, hA, (keyBytes_lt_iff hx hz.free).1 hlt, (keyBase_prefix_iff hyf hz.free).1 hp⟩
    · rw [ho, keyBytes_lt_iff hx (hz.hidden_free hh)] at hlt
      rw [ho, keyBase_prefix_iff hyf (hz.hidden_free hh)] at hp
      have hyz : y <+: z := by
        rcases List.prefix_concat_iff.1 hp with rfl | hp
        · -- a hidden subscript would be one of `y`
          obtain ⟨c, rfl⟩ := hh.cons
          have := hhead (2 :: c) (by rw [List.tail_append_of_ne_nil hz.ne_nil]; simp)
          exact absurd rfl this
        · exact hp
      have hne : y ≠ z := by
        rintro rfl
        exact hself h e.2 hh (by rw [← ho]; exact he) hlt
      exact ⟨z, v, hz, hA, hup z h hz hh hyz hne hlt, hyz⟩
  · rintro ⟨z, v, hz, hA, hlt, hp⟩
    exact ⟨_, (hR.mem_node hz).2 ⟨v, hA, rfl⟩, (keyBytes_lt_iff hx hz.free).2 hlt, (keyBase_prefix_iff hyf hz.free).2 hp⟩

theorem NodeSubs.head_ne (hu : NodeSubs std u) : ∀ r ∈ u.tail, r.head? ≠ some 2 := fun r hr => (hu.subs r hr).head_ne

section
variable (hR : Rep env std S A) (hu : NodeSubs std u)
include hR hu

/-- Where a node's value fits, the store has descendants of it where the map has. -/
theorem Rep.hasBehind_node (hfit : ∀ v, (keyBytes u, v) ∈ A → fits env u v = true) :
    hasBehind S (keyBytes u) (keyBase u) = hasBehind A (keyBytes u) (keyBase u) := by
  rw [Bool.eq_iff_iff, hR.hasBehind_abs_iff hu.free hu.free]
  refine hR.hasBehind_iff hu.free hu.ne_nil hu.free hu.head_ne ?_ ?_
  · intro h x hh hx
    obtain ⟨v, hA, hnf, -⟩ := (hR.mem_hidden hu hh).1 hx
    rw [hfit v hA] at hnf
    cases hnf
  · rintro z h hz hh ⟨c, rfl⟩ hne -
    cases c with
    | nil => simp at hne
    | cons r c => exact lt_append_cons u r c

/-- The existence code where a node's value fits. -/
theorem Rep.dollarData_node (hk : k.base = keyBase u)
    (hfit : ∀ v, (keyBytes u, v) ∈ A → fits env u v = true) : dollarData S k 0 = dollarData A k 0 := by
  have hbytes : k.bytes = keyBytes u := by rw [GvKey.bytes, hk, keyBytes]
  have hlen : (keyBase u).length + 0 = k.kend := by simp [GvKey.kend, hk]
  rw [dollarData_eq hR.sorted (keyBase_prefix_bytes hk) hlen, dollarData_eq hR.sorted_abs (keyBase_prefix_bytes hk) hlen, hbytes,
    hR.hasBehind_node hu hfit, hR.lookup_node hu]
  simp

/-- The descendants of a node in the map are found from its key with the least subscript appended. -/
theorem Rep.hasBehind_iff_next :
    hasBehind A (keyBytes u) (keyBase u) = true ↔ ∃ e, next (keyBytes (u ++ [[1]])) A = some e ∧ keyBase u <+: e.1 := by
  have hone := free_append_one hu
  constructor
  · intro h
    obtain ⟨z, v, hz, hA, hlt, c, rfl⟩ := (hR.hasBehind_abs_iff hu.free hu.free).1 h
    have hle := (keyBytes_le_iff hone hz.free).2 (append_one_le hz.free hlt)
    cases hn : next (keyBytes (u ++ [[1]])) A with
    | none => exact absurd (next_eq_none_iff.1 hn _ hA) (not_lt.2 hle)
    | some e =>
      obtain ⟨he, h1, h2⟩ := (next_eq_some_iff hR.sorted_abs).1 hn
      refine ⟨e, rfl, prefix_of_between (p := keyBase u) (keyBytes [[1]]) (keyBytes c) ?_ ?_⟩
      · simpa [keyBytes] using h1
      · simpa [keyBytes] using h2 _ hA hle
  · rintro ⟨e, hn, hp⟩
    obtain ⟨he, h1, -⟩ := (next_eq_some_iff hR.sorted_abs).1 hn
    exact Gtm.hasBehind_iff.2 ⟨e, he, ((keyBytes_lt_iff hu.free hone).2 (lt_append_cons u [1] [])).trans_le h1, hp⟩

end

theorem take_keyBase_eq_iff {z : List (List UInt8)} (hu : NodeSubs std u) (hz : NodeSubs std z) :
    keyBase u = (keyBase z).take (keyBase u).length ↔ keyBase u <+: keyBytes z := by
  rw [keyBase_prefix_iff hu.free hz.free]
  constructor
  · intro h
    rw [← keyBase_prefix_iff hu.free hz.free]
    exact (h ▸ List.take_prefix _ _).trans (List.prefix_append _ _)
  · rintro ⟨c, rfl⟩
    rw [keyBase_append, List.take_left]

/-- `gvcst_data` gives the existence code of the map. -/
theorem gvcstData_spec (s : GvState) (hR : Rep env std s.store A) (hu : NodeSubs std u) (hk : s.currkey.base = keyBase u) :
    (gvcstData s).1 = dollarData A s.currkey 0 ∧ (gvcstData s).2 = { s with altkey := (gvcstData s).2.altkey } := by
  have hbytes : s.currkey.bytes = keyBytes u := by rw [GvKey.bytes, hk, keyBytes]
  have hlen : (keyBase u).length + 0 = s.currkey.kend := by simp [GvKey.kend, hk]
  cases hd : holdsDummy s.store s.currkey with
  | false =>
    have hfit : ∀ v, (keyBytes u, v) ∈ A → fits env u v = true := by
      intro v hA
      rw [← Bool.not_eq_false]
      intro hnf
      have := (hR.mem_node hu).2 ⟨v, hA, rfl⟩
      rw [hnf, if_neg (by simp), ← holdsDummy_iff hR.sorted hk, hd] at this
      cases this
    have hval : gvcstData2 s.store s.currkey = dollarData A s.currkey 0 := by
      rw [gvcstData2, hd, if_neg (by simp), hR.dollarData_node hu hk hfit]
    have hne : gvcstData2 s.store s.currkey ≠ -1 := by
      omega
    have hst : gvcstData s = ((dollarData A s.currkey 0 : ℤ), s) := by
      simp only [gvcstData]
      rw [if_pos hne, hval]
    rw [hst]
    exact ⟨rfl, rfl⟩
  | true =>
    -- the node has a value, so its descendants decide
    obtain ⟨v, hA, -⟩ := (hR.mem_node hu).1 ((holdsDummy_iff hR.sorted hk).1 hd)
    have hown : (lookup (keyBytes u) A).isSome = true := by
      rw [(lookup_eq_some_iff hR.sorted_abs).2 hA]
      rfl
    obtain ⟨key, hkey⟩ : ∃ key, key = gvkeyIncrementQuery s.currkey := ⟨_, rfl⟩
    have hkb : key.base = keyBase (u ++ [[1]]) := by simp [hkey, gvkeyIncrementQuery, hk]
    have hkbytes : key.bytes = keyBytes (u ++ [[1]]) := by rw [GvKey.bytes, hkb, keyBytes]
    obtain ⟨⟨hfound, halt⟩, hsame⟩ := gvcstQuery_spec { s with currkey := key } hR (free_append_one hu) hkb
    have hcond : ((gvcstQuery { s with currkey := key }).1 = true ∧ key.base.take s.currkey.kend =
        (gvcstQuery { s with currkey := key }).2.altkey.base.take s.currkey.kend) ↔ hasBehind A (keyBytes u) (keyBase u) = true := by
      rw [hR.hasBehind_iff_next hu]
      have htake : key.base.take s.currkey.kend = keyBase u := by
        rw [hkb, ← hlen, keyBase_append, Nat.add_zero, List.take_left]
      rw [htake, ← hlen, Nat.add_zero]
      cases hn : next (keyBytes (u ++ [[1]])) A with
      | none =>
        have : (gvcstQuery { s with currkey := key }).1 = false := by
          rw [hfound]
          simp [gvcstQuery2, hkbytes, hn]
        simp [this]
      | some e =>
        obtain ⟨he, -, -⟩ := (next_eq_some_iff hR.sorted_abs).1 hn
        obtain ⟨z, hz, heq, -⟩ := hR.nodes e he
        have htrue : (gvcstQuery { s with currkey := key }).1 = true := by
          rw [hfound]
          simp [gvcstQuery2, hkbytes, hn]
        have hbase : (gvcstQuery { s with currkey := key }).2.altkey.base = keyBase z := by
          have hdrop : (keyBytes z).dropLast = keyBase z := by simp [keyBytes]
          rw [halt htrue]
          simp [gvcstQuery2, hkbytes, hn, heq, hdrop]
        rw [hbase, take_keyBase_eq_iff hu hz]
        simp [htrue, heq]
    have hrestore : restoreCurrkey key s.currkey.kend = s.currkey := by
      have : key = { s.currkey with base := keyBase u ++ keyBase [[1]] } := by simp [hkey, gvkeyIncrementQuery, hk]
      rw [this]
      exact restoreCurrkey_eq hk hu.ne_nil _
    have hval : gvcstData2 s.store s.currkey = -1 := by rw [gvcstData2, if_pos hd]
    have hcur : (gvcstQuery { s with currkey := key }).2.currkey = key := by rw [hsame]
    have hst : gvcstData s = ((if hasBehind A (keyBytes u) (keyBase u) = true then 1 + 10 else 1 : ℤ),
        { s with altkey := (gvcstQuery { s with currkey := key }).2.altkey }) := by
      simp only [gvcstData]
      rw [if_neg (by simp [hval]), ← hkey]
      refine Prod.ext ?_ ?_
      · rw [hcur]
        simp only [hcond]
      · rw [hcur, hrestore, hsame]
    rw [hst, dollarData_eq hR.sorted_abs (keyBase_prefix_bytes hk) hlen, hbytes]
    refine ⟨?_, rfl⟩
    split <;> simp

/-! ### Existence and value at once -/

theorem chunkSub_lt {i j : ℕ} (hij : i < j) (hj : j < 65000) : chunkSub i < chunkSub j := by
  have hb : ∀ i, i < 65000 → (UInt8.ofNat (1 + (i + 1) / 255)).toNat = 1 + (i + 1) / 255 := by
    intro i hi
    rw [UInt8.toNat_ofNat']
    omega
  have hc : ∀ i, (UInt8.ofNat (1 + (i + 1) % 255)).toNat = 1 + (i + 1) % 255 := by
    intro i
    rw [UInt8.toNat_ofNat']
    omega
  simp only [chunkSub, List.cons_lt_cons_iff, UInt8.lt_iff_toNat_lt, ← UInt8.toNat_inj, hb i (hij.trans hj), hb j hj, hc]
  refine .inr ⟨trivial, ?_⟩
  rcases (Nat.div_le_div_right (c := 255) (by omega : i + 1 ≤ j + 1)).lt_or_eq with h | h
  · exact .inl (by omega)
  · have h1 := Nat.div_add_mod (i + 1) 255
    exact .inr ⟨by omega, .inl (by omega)⟩

theorem dollarData_mod (m : Store) (k : GvKey) (delta : ℕ) :
    dollarData m k delta % 10 = if (lookup k.bytes m).isSome then 1 else 0 := by
  rw [dollarData]
  split <;> split <;> try split
  all_goals rfl

/-- What `gvcst_dataget2` finds under a key that has a record. -/
theorem gvcstDataget2_mod {x : List UInt8} (h : lookup k.bytes m = some x) (info : DgInfo) : (gvcstDataget2 m k info).1 % 10 = 1 := by
  simp only [gvcstDataget2]
  split
  · rw [dollarData_mod, h]
    rfl
  · rw [dollarData_mod, h]
    rfl

theorem gvcstDataget2_value (m : Store) (k : GvKey) {info : DgInfo} (h : info ≠ .dataOnly) :
    (gvcstDataget2 m k info).2 = (lookup k.bytes m).getD [] := by
  simp [gvcstDataget2, h]

/-- A value that does not fit has a chunk. -/
theorem ValOk.count_pos (hv : ValOk env u v) (hfit : fits env u v = false) : 0 < chunkCount env u v := by
  have hc := hv.size_pos
  have hlen : 1 ≤ v.length := by
    simp only [fits, recordFits, decide_eq_false_iff_not, not_le] at hfit
    simp only [chunkSize, computeChunkSize, GvKey.kend, nodeKey, keyBase_append, List.length_append] at hc hfit
    omega
  exact Nat.div_pos (by omega) hc

/-- The key of chunk `i` behind `k`. -/
def chunkKey (k : GvKey) (u : List (List UInt8)) (i : ℕ) : GvKey := { k with base := keyBase u ++ keyBase [chunkSub i] }

section
variable (hR : Rep env std S A) (hu : NodeSubs std u)
include hR hu

/-- From chunk `i` on, the pieces add up to the value, and the last one gives the existence code. -/
theorem datagetChunks_spec (hA : (keyBytes u, v) ∈ A) (hfit : fits env u v = false)
    (dgInfo : DgInfo) (cnt i : ℕ) (hi : i + cnt = chunkCount env u v) (key : GvKey) (hkey : IsHiddenOf k u key) (dlr : ℕ) :
    ∃ key', IsHiddenOf k u key' ∧ datagetChunks S dgInfo v.length (chunkCount env u v) cnt i key (v.take (i * chunkSize env u)) dlr =
        (v, chunkCount env u v, key', if cnt = 0 then dlr else (gvcstDataget2 S (chunkKey k u (chunkCount env u v - 1))
          (if dgInfo = .dataGet then .getSnData else .getOnly)).1) := by
  induction cnt generalizing i key dlr with
  | zero =>
    have htake : v.take (i * chunkSize env u) = v := by
      rw [Nat.add_zero] at hi
      rw [hi]
      exact List.take_of_length_le (hR.valOk hu hA).length_le_chunks
    exact ⟨key, hkey, by rw [datagetChunks, htake, ← hi, Nat.add_zero, if_pos rfl]⟩
  | succ cnt ih =>
    obtain ⟨info, hinfo⟩ : ∃ info : DgInfo, info = if i + 1 = chunkCount env u v ∧ dgInfo = .dataGet then .getSnData else .getOnly :=
      ⟨_, rfl⟩
    have hlook : lookup (nextHiddenSub key i).bytes S = some (chunk env u v i) := by
      rw [hkey.next_bytes]
      exact hR.lookup_chunk hu hA hfit (by omega)
    have hmod := gvcstDataget2_mod hlook info
    have hpiece : (gvcstDataget2 S (nextHiddenSub key i) info).2 = chunk env u v i := by
      rw [gvcstDataget2_value _ _ (by rw [hinfo]; split <;> simp), hlook]
      rfl
    have hlen : ¬ v.length < (v.take ((i + 1) * chunkSize env u)).length := by
      rw [List.length_take]
      omega
    obtain ⟨key', hkey', heq⟩ := ih (i + 1) (by omega) _ (isHiddenOf_next hkey i) (gvcstDataget2 S (nextHiddenSub key i) info).1
    refine ⟨key', hkey', ?_⟩
    rw [datagetChunks]
    dsimp only
    rw [← hinfo, if_neg (by rw [hmod]; simp), hpiece, take_append_chunk, if_neg hlen, heq]
    split
    · -- chunk `i` is the last one
      rename_i h0
      have hlast : i = chunkCount env u v - 1 := by omega
      have hi1 : i + 1 = chunkCount env u v := by omega
      rw [hinfo, hkey.next i, chunkKey, ← hlast]
      simp [hi1]
    · rfl

/-- The records of the store behind the last chunk of a node that begin with the node. -/
theorem Rep.hasBehind_last_chunk (hA : (keyBytes u, v) ∈ A) :
    hasBehind S (keyBytes (u ++ [chunkSub (chunkCount env u v - 1)])) (keyBase u) = true ↔
      ∃ z w, NodeSubs std z ∧ (keyBytes z, w) ∈ A ∧ u ++ [chunkSub (chunkCount env u v - 1)] < z ∧ u <+: z := by
  have hcount := (hR.valOk hu hA).count_lt
  have hlast : HiddenSub (chunkSub (chunkCount env u v - 1)) := chunkSub_hidden (by omega)
  refine hR.hasBehind_iff (hu.hidden_free hlast) hu.ne_nil hu.free hu.head_ne ?_ ?_
  · -- the other hidden records of the node stand before
    intro h x hh hx
    obtain ⟨w, hw, -, hcase⟩ := (hR.mem_hidden hu hh).1 hx
    obtain rfl : v = w := (Prod.ext_iff.1 (hR.sorted_abs.unique hA hw rfl)).2
    rw [append_left_lt_iff, List.cons_lt_cons_iff, not_or]
    refine ⟨not_lt.2 ?_, fun h => List.not_lt_nil _ h.2⟩
    rcases hcase with ⟨rfl, -⟩ | ⟨i, hi, rfl, -⟩
    · exact hlast.lowest_le
    · rcases Nat.lt_or_ge i (chunkCount env u v - 1) with hlt | hge
      · exact (chunkSub_lt hlt (by omega)).le
      · rw [show i = chunkCount env u v - 1 by omega]
  · rintro z h hz hh ⟨c, rfl⟩ hne hlt
    cases c with
    | nil => simp at hne
    | cons r c =>
      have hr := NodeSubs.sub_of_append hu.ne_nil hz
      rw [List.append_assoc, append_left_lt_iff, List.cons_append, List.cons_lt_cons_iff] at hlt
      rw [append_left_lt_iff, List.cons_lt_cons_iff]
      rcases hlt with hlt | ⟨heq, -⟩
      · exact .inl hlt
      · exact (hlast.not_subBytes (heq ▸ hr)).elim

/-- Something exists under the null subscript of a node. -/
theorem Rep.dollarData_null (hk : k.base = keyBase (u ++ [[1]])) :
    dollarData S k 0 ≠ 0 ↔ ∃ z w, NodeSubs std z ∧ (keyBytes z, w) ∈ A ∧ u ++ [[1]] <+: z := by
  have hbytes : k.bytes = keyBytes (u ++ [[1]]) := by rw [GvKey.bytes, hk, keyBytes]
  have hone := free_append_one hu
  rw [dollarData_eq hR.sorted (keyBase_prefix_bytes hk) (by simp [GvKey.kend, hk]), hbytes]
  constructor
  · intro h
    -- some record begins with the null subscript; its node does too
    obtain ⟨e, he, hp⟩ : ∃ e ∈ S, keyBase (u ++ [[1]]) <+: e.1 := by
      cases hl : lookup (keyBytes (u ++ [[1]])) S with
      | some x => exact ⟨_, (lookup_eq_some_iff hR.sorted).1 hl, List.prefix_append _ _⟩
      | none =>
        have hb : hasBehind S (keyBytes (u ++ [[1]])) (keyBase (u ++ [[1]])) = true := by
          by_contra hb
          rw [hl, if_neg hb] at h
          exact h rfl
        obtain ⟨e, he, -, hp⟩ := Gtm.hasBehind_iff.1 hb
        exact ⟨e, he, hp⟩
    obtain ⟨z, w, hz, hA, ho⟩ := hR.owned he
    refine ⟨z, w, hz, hA, ?_⟩
    rcases ho with ho | ⟨h', hh', ho⟩
    · rw [ho] at hp
      exact (keyBase_prefix_iff hone hz.free).1 hp
    · rw [ho, keyBase_prefix_iff hone (hz.hidden_free hh')] at hp
      rcases List.prefix_concat_iff.1 hp with heq | hp
      · obtain ⟨-, heq⟩ := List.append_inj' heq rfl
        obtain ⟨c, rfl⟩ := hh'.cons
        simp at heq
      · exact hp
  · rintro ⟨z, w, hz, hA, hp⟩
    have hmem := (hR.mem_node hz).2 ⟨w, hA, rfl⟩
    obtain ⟨c, rfl⟩ := hp
    cases c with
    | nil =>
      rw [List.append_nil] at hmem
      rw [(lookup_eq_some_iff hR.sorted).2 hmem]
      simp
    | cons r c =>
      have hb : hasBehind S (keyBytes (u ++ [[1]])) (keyBase (u ++ [[1]])) = true :=
        Gtm.hasBehind_iff.2 ⟨_, hmem, (keyBytes_lt_iff hone hz.free).2 (lt_append_cons _ r c),
          (keyBase_prefix_iff hone hz.free).2 (List.prefix_append _ _)⟩
      rw [hb]
      simp

/-- The descendants of a spanning node stand behind its chunks or under its null subscript. -/
theorem Rep.hasBehind_span_iff (hh : HiddenSub h) : hasBehind A (keyBytes u) (keyBase u) = true ↔
      (∃ z w, NodeSubs std z ∧ (keyBytes z, w) ∈ A ∧ u ++ [h] < z ∧ u <+: z) ∨
        (std = true ∧ ∃ z w, NodeSubs std z ∧ (keyBytes z, w) ∈ A ∧ u ++ [[1]] <+: z) := by
  rw [hR.hasBehind_abs_iff hu.free hu.free]
  constructor
  · rintro ⟨z, w, hz, hA, hlt, c, rfl⟩
    cases c with
    | nil => simp at hlt
    | cons r c =>
      have hr := NodeSubs.sub_of_append hu.ne_nil hz
      obtain ⟨b, rfl⟩ := hh.cons
      rcases lt_or_ge r (2 :: b) with hrh | hrh
      · obtain ⟨rfl, hstd⟩ := hr.null_of_lt hrh
        exact .inr ⟨hstd, _, w, hz, hA, ⟨c, by simp⟩⟩
      · have hrh' : 2 :: b < r := lt_of_le_of_ne hrh fun heq => hr.head_ne (by rw [← heq]; rfl)
        refine .inl ⟨_, w, hz, hA, ?_, List.prefix_append _ _⟩
        rw [append_left_lt_iff, List.cons_lt_cons_iff]
        exact .inl hrh'
  · rintro (⟨z, w, hz, hA, hlt, hp⟩ | ⟨-, z, w, hz, hA, c, rfl⟩)
    · exact ⟨z, w, hz, hA, (lt_append_cons u h []).trans hlt, hp⟩
    · refine ⟨_, w, hz, hA, ?_, ?_⟩
      · rw [List.append_assoc]
        exact lt_append_cons u [1] c
      · rw [List.append_assoc]
        exact List.prefix_append _ _

/-- The existence code the last chunk is found with. -/
theorem Rep.dlr_last_chunk (hA : (keyBytes u, v) ∈ A) (hfit : fits env u v = false) :
    (gvcstDataget2 S (chunkKey k u (chunkCount env u v - 1)) .getSnData).1 =
      1 + if hasBehind S (keyBytes (u ++ [chunkSub (chunkCount env u v - 1)])) (keyBase u) then 10 else 0 := by
  have hpos := (hR.valOk hu hA).count_pos hfit
  have hb : (chunkKey k u (chunkCount env u v - 1)).bytes = keyBytes (u ++ [chunkSub (chunkCount env u v - 1)]) := by
    simp [chunkKey, GvKey.bytes, keyBytes]
  have hp : keyBase u <+: (chunkKey k u (chunkCount env u v - 1)).bytes := by
    rw [hb, keyBytes, keyBase_append, List.append_assoc]
    exact List.prefix_append _ _
  have hlen : (keyBase u).length + 4 = (chunkKey k u (chunkCount env u v - 1)).kend := by
    simp [chunkKey, GvKey.kend, chunkSub]
  simp only [gvcstDataget2, if_true, reduceCtorEq, if_false]
  rw [dollarData_eq hR.sorted hp hlen, hb, hR.lookup_chunk hu hA hfit (by omega)]
  simp

end

section
variable (s : GvState) (hR : Rep env std s.store A)
include s hR

/-- `gvcst_dataget` on a node whose value fits. -/
theorem gvcstDataget_fits (hu : NodeSubs std u) (hk : s.currkey.base = keyBase u) (hinfo : dgInfo = .getOnly ∨ dgInfo = .dataGet) (hfit : ∀ v, (keyBytes u, v) ∈ A → fits env u v = true) :
    gvcstDataget env s dgInfo = (some (gvcstDataget2 A s.currkey dgInfo), s) := by
  have hbytes : s.currkey.bytes = keyBytes u := by rw [GvKey.bytes, hk, keyBytes]
  have hlook : lookup (keyBytes u) s.store = lookup (keyBytes u) A := by
    rw [hR.lookup_node hu]
    cases hA : lookup (keyBytes u) A with
    | none => rfl
    | some v =>
      rw [Option.map_some, hfit v ((lookup_eq_some_iff hR.sorted_abs).1 hA)]
      rfl
  have hne : dgInfo ≠ .getSnData := by rcases hinfo with rfl | rfl <;> simp
  have hsame : gvcstDataget2 s.store s.currkey dgInfo = gvcstDataget2 A s.currkey dgInfo := by
    simp only [gvcstDataget2, if_neg hne, hR.dollarData_node hu hk hfit, hbytes, hlook]
  have hanswer : (if dgInfo = .getOnly then (gvcstDataget2 A s.currkey dgInfo).1 % 10 else (gvcstDataget2 A s.currkey dgInfo).1,
      (gvcstDataget2 A s.currkey dgInfo).2) = gvcstDataget2 A s.currkey dgInfo := by
    rcases hinfo with rfl | rfl <;> simp [gvcstDataget2]
  simp only [gvcstDataget, hsame]
  by_cases hstop : (gvcstDataget2 A s.currkey dgInfo).1 % 10 = 0 ∨ isSnDummy (gvcstDataget2 A s.currkey dgInfo).2 = false
  · rw [if_pos hstop, hanswer]
  · -- a value of one zero byte: there is no control record
    have hctl : (gvcstDataget2 s.store (appendHiddenSub s.currkey) dgInfo).1 % 10 = 0 := by
      have hcb : (appendHiddenSub s.currkey).bytes = keyBytes (u ++ [controlSub]) := by
        rw [appendHiddenSub_eq hk]
        simp [GvKey.bytes, keyBytes]
      have hA : ∃ v, (keyBytes u, v) ∈ A := by
        cases hl : lookup (keyBytes u) A with
        | none =>
          refine absurd (.inl ?_) hstop
          simp only [gvcstDataget2]
          split <;> simp [dollarData_mod, hbytes, hl]
        | some v => exact ⟨v, (lookup_eq_some_iff hR.sorted_abs).1 hl⟩
      obtain ⟨v, hA⟩ := hA
      simp only [gvcstDataget2]
      split <;> simp [dollarData_mod, hcb, hR.lookup_control_none hu hA (hfit v hA)]
    rw [if_neg hstop, if_pos hctl, (isHiddenOf_append hk).restore hk hu.ne_nil, hanswer]

section
variable (hstd : env.stdNullColl = std) (hu : NodeSubs std u) (hk : s.currkey.base = keyBase u) (hinfo : dgInfo = .getOnly ∨ dgInfo = .dataGet)
include hstd hu hk hinfo

/-- `gvcst_dataget` on a spanning node. -/
theorem gvcstDataget_span (hA : (keyBytes u, v) ∈ A) (hfit : fits env u v = false) :
    gvcstDataget env s dgInfo = (some (gvcstDataget2 A s.currkey dgInfo), s) := by
  have hbytes : s.currkey.bytes = keyBytes u := by rw [GvKey.bytes, hk, keyBytes]
  have hv := hR.valOk hu hA
  have hlookA := (lookup_eq_some_iff hR.sorted_abs).2 hA
  have hlook : lookup s.currkey.bytes s.store = some nsbDummy := by
    rw [hbytes, hR.lookup_node hu, hlookA]
    simp [hfit]
  have hcb : (appendHiddenSub s.currkey).bytes = keyBytes (u ++ [controlSub]) := by
    rw [appendHiddenSub_eq hk]
    simp [GvKey.bytes, keyBytes]
  have hlookc : lookup (appendHiddenSub s.currkey).bytes s.store = some (putNsbctrl (chunkCount env u v) v.length) := by
    rw [hcb]
    exact hR.lookup_control hu hA hfit
  have hne : dgInfo ≠ .dataOnly := by rcases hinfo with rfl | rfl <;> simp
  have hval : (gvcstDataget2 s.store s.currkey dgInfo).2 = nsbDummy := by
    rw [gvcstDataget2_value _ _ hne, hlook]
    rfl
  have hvalc : (gvcstDataget2 s.store (appendHiddenSub s.currkey) dgInfo).2 = putNsbctrl (chunkCount env u v) v.length := by
    rw [gvcstDataget2_value _ _ hne, hlookc]
    rfl
  have hgot := gvcstDataget2_mod hlook dgInfo
  have hgotc := gvcstDataget2_mod hlookc dgInfo
  obtain ⟨key', hkey', hloop⟩ := datagetChunks_spec hR hu hA hfit dgInfo _ 0 (Nat.zero_add _) _ (isHiddenOf_append hk) 0
  rw [Nat.zero_mul, List.take_zero, if_neg (hv.count_pos hfit).ne'] at hloop
  have hrestore := hkey'.restore hk hu.ne_nil
  have hgo : ¬ ((gvcstDataget2 s.store s.currkey dgInfo).1 % 10 = 0 ∨ isSnDummy (gvcstDataget2 s.store s.currkey dgInfo).2 = false) := by
    rw [hgot, hval]
    simp [isSnDummy, nsbDummy]
  have hgoc : ¬ (gvcstDataget2 s.store (appendHiddenSub s.currkey) dgInfo).1 % 10 = 0 := by
    rw [hgotc]
    simp
  simp only [gvcstDataget]
  rw [if_neg hgo, if_neg hgoc, hvalc, hv.getNsbctrl_eq]
  rw [hloop]
  rw [if_neg (by simp)]
  rcases hinfo with rfl | rfl
  · rw [if_pos rfl, hgot, hrestore]
    simp [gvcstDataget2, dollarData_mod, hbytes, hlookA]
  · have hlast := hR.dlr_last_chunk (k := s.currkey) hu hA hfit
    have hdesc := hR.hasBehind_span_iff hu (chunkSub_hidden (i := chunkCount env u v - 1) (by have := hv.count_lt; omega))
    rw [← hR.hasBehind_last_chunk hu hA] at hdesc
    have hans : gvcstDataget2 A s.currkey .dataGet = (1 + (if hasBehind A (keyBytes u) (keyBase u) then 10 else 0), v) := by
      simp only [gvcstDataget2, reduceCtorEq, if_false]
      rw [dollarData_eq hR.sorted_abs (keyBase_prefix_bytes hk) (by simp [GvKey.kend, hk]), hbytes, hlookA]
      simp
    rw [hans]
    simp only [if_true, reduceCtorEq, if_false, hrestore]
    rw [hlast]
    by_cases hb : hasBehind s.store (keyBytes (u ++ [chunkSub (chunkCount env u v - 1)])) (keyBase u) = true
    · rw [if_pos hb, if_neg (by simp), if_pos (hdesc.2 (.inl hb))]
    · rw [if_neg hb]
      obtain ⟨key, hkey⟩ : ∃ key, key = gvkeyIncrementQuery s.currkey := ⟨_, rfl⟩
      have hkb : key.base = keyBase (u ++ [[1]]) := by simp [hkey, gvkeyIncrementQuery, hk]
      have hnull : (gvcstDataget2 s.store key .dataOnly).1 = dollarData s.store key 0 := by
        simp only [gvcstDataget2, reduceCtorEq, if_false]
      have hback : restoreCurrkey key s.currkey.kend = s.currkey := by
        have : key = { s.currkey with base := keyBase u ++ keyBase [[1]] } := by simp [hkey, gvkeyIncrementQuery, hk]
        rw [this]
        exact restoreCurrkey_eq hk hu.ne_nil _
      rw [← hR.dollarData_null hu hkb] at hdesc
      rw [← hkey, hback, hstd]
      cases std with
      | false =>
        have : ¬ hasBehind A (keyBytes u) (keyBase u) = true := by
          rw [hdesc]
          simp [hb]
        rw [if_neg (by simp), if_neg this]
      | true =>
        rw [if_pos ⟨by simp, rfl⟩]
        by_cases hn : (gvcstDataget2 s.store key .dataOnly).1 ≠ 0
        · rw [if_pos hn, if_pos (hdesc.2 (.inr ⟨rfl, hn⟩))]
        · have : ¬ hasBehind A (keyBytes u) (keyBase u) = true := by
            rw [hdesc]
            rintro (h | ⟨-, h⟩)
            · exact hb h
            · exact hn h
          rw [if_neg hn, if_neg this]

/-- `gvcst_dataget` gives the existence code and the value of the map. -/
theorem gvcstDataget_spec : gvcstDataget env s dgInfo = (some (gvcstDataget2 A s.currkey dgInfo), s) := by
  by_cases hspan : ∃ v, (keyBytes u, v) ∈ A ∧ fits env u v = false
  · obtain ⟨v, hA, hfit⟩ := hspan
    exact gvcstDataget_span s hR hstd hu hk hinfo hA hfit
  · refine gvcstDataget_fits s hR hu hk hinfo ?_
    intro v hA
    rw [← Bool.not_eq_false]
    intro hfit
    exact hspan ⟨v, hA, hfit⟩

end

end

end

end Gtm
