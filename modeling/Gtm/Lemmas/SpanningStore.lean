import Gtm.Lemmas.GlobalKey

/-!
# The store of a global with spanning nodes

A store represents a map of whole values: every value that fits in a block is a record of its own, every other one the dummy
record, the control record and the chunks, and there is nothing else. Setting and killing a node keep this.
-/

namespace Gtm

open SortedMap LexOrder Terminated

/-- `MAX_STRLEN`. -/
def maxStrlen : Nat := 1048576

/-- The key of a list of subscripts. -/
def nodeKey (u : List (List UInt8)) : GvKey := { base := keyBase u, prev := (keyBase u.dropLast).length, top := 0 }

/-- The hidden subscript of the control record. -/
def controlSub : List UInt8 := [2, 1, 1]

/-- The hidden subscript of chunk `i`. -/
def chunkSub (i : Nat) : List UInt8 := [2, UInt8.ofNat (1 + (i + 1) / 0xFF), UInt8.ofNat (1 + (i + 1) % 0xFF)]

/-- The value fits in a block under its key. -/
def fits (env : GvEnv) (u : List (List UInt8)) (v : List UInt8) : Bool := recordFits env (nodeKey u) v

def chunkSize (env : GvEnv) (u : List (List UInt8)) : Nat := (computeChunkSize env (nodeKey (u ++ [controlSub]))).toNat

def chunkCount (env : GvEnv) (u : List (List UInt8)) (v : List UInt8) : Nat :=
  (v.length + chunkSize env u - 1) / chunkSize env u

def chunk (env : GvEnv) (u : List (List UInt8)) (v : List UInt8) (i : Nat) : List UInt8 :=
  (v.drop (i * chunkSize env u)).take (chunkSize env u)

/-- The records a whole value is kept in. -/
def records (env : GvEnv) (u : List (List UInt8)) (v : List UInt8) : List (List (List UInt8) × List UInt8) :=
  if fits env u v then [(u, v)]
  else
    (u, nsbDummy) :: (u ++ [controlSub], putNsbctrl (chunkCount env u v) v.length) ::
      (List.range (chunkCount env u v)).map fun i => (u ++ [chunkSub i], chunk env u v i)

/-- There is room for a chunk under a hidden key, and the value takes fewer than 65000 of them. -/
structure ValOk (env : GvEnv) (u : List (List UInt8)) (v : List UInt8) : Prop where
  size_pos : 0 < chunkSize env u
  count_lt : chunkCount env u v < 65000
  length_le : v.length ≤ maxStrlen

/-- The store `S` keeps the whole values of `A`. -/
structure Rep (env : GvEnv) (std : Bool) (S A : Store) : Prop where
  sorted : Sorted S
  sorted_abs : Sorted A
  nodes : ∀ e ∈ A, ∃ u, NodeSubs std u ∧ e.1 = keyBytes u ∧ ValOk env u e.2
  mem : ∀ e, e ∈ S ↔ ∃ u v, NodeSubs std u ∧ (keyBytes u, v) ∈ A ∧ ∃ f ∈ records env u v, e = (keyBytes f.1, f.2)

/-! ### Hidden subscripts of chunks -/

variable {i : ℕ} {u : List (List UInt8)} {env : GvEnv} {v : List UInt8}

theorem chunkSub_hidden (hi : i < 65000) : HiddenSub (chunkSub i) := by
  have hb : (UInt8.ofNat (1 + (i + 1) / 255)).toNat = 1 + (i + 1) / 255 := by
    rw [UInt8.toNat_ofNat']
    omega
  have hc : (UInt8.ofNat (1 + (i + 1) % 255)).toNat = 1 + (i + 1) % 255 := by
    rw [UInt8.toNat_ofNat']
    omega
  constructor
  · refine ⟨_, _, rfl, ?_, ?_⟩
    · rw [UInt8.lt_iff_toNat_lt, hb]
      simp
    · rw [UInt8.lt_iff_toNat_lt, hc]
      simp
  · simp only [chunkSub, List.cons_lt_cons_iff, UInt8.lt_iff_toNat_lt, ← UInt8.toNat_inj, hb, hc]
    -- only the last 230 chunks have the highest first byte, and their second one is low
    refine .inr ⟨trivial, ?_⟩
    have h255 : (0xFF : UInt8).toNat = 255 := rfl
    rcases Nat.lt_or_ge (1 + (i + 1) / 255) 255 with h | h
    · exact .inl h
    · exact .inr ⟨by omega, .inl (by omega)⟩

theorem controlSub_hidden : HiddenSub controlSub := ⟨⟨1, 1, rfl, by decide, by decide⟩, by decide⟩

theorem chunkSub_inj {j : ℕ} (hi : i < 65000) (hj : j < 65000) (h : chunkSub i = chunkSub j) : i = j := by
  simp only [chunkSub, List.cons.injEq, and_true, true_and, ← UInt8.toNat_inj, UInt8.toNat_ofNat'] at h
  omega

theorem chunkSub_ne_control (hi : i < 65000) : chunkSub i ≠ controlSub := by
  intro h
  simp only [chunkSub, controlSub, List.cons.injEq, and_true, true_and, ← UInt8.toNat_inj, UInt8.toNat_ofNat'] at h
  have h1 : (1 : UInt8).toNat = 1 := rfl
  omega

/-! ### The records of a value -/

/-- `x` is the key of a node or one of its hidden keys. -/
def Owns (u : List (List UInt8)) (x : List UInt8) : Prop := x = keyBytes u ∨ ∃ h, HiddenSub h ∧ x = keyBytes (u ++ [h])

theorem owns_unique {std : Bool} {w : List (List UInt8)} {x : List UInt8} (hu : NodeSubs std u) (hw : NodeSubs std w)
    (h1 : Owns u x) (h2 : Owns w x) : u = w := by
  rcases h1 with rfl | ⟨h, hh, rfl⟩
  · rcases h2 with h2 | ⟨h', hh', h2⟩
    · exact (keyBytes_inj hu.free hw.free).1 h2
    · exact absurd ((keyBytes_inj hu.free (hw.hidden_free hh')).1 h2) (hu.ne_hidden hw.ne_nil hh')
  · rcases h2 with h2 | ⟨h', hh', h2⟩
    · exact absurd ((keyBytes_inj (hu.hidden_free hh) hw.free).1 h2).symm (hw.ne_hidden hu.ne_nil hh)
    · exact (List.append_inj' ((keyBytes_inj (hu.hidden_free hh) (hw.hidden_free hh')).1 h2) rfl).1

theorem records_of_fits (h : fits env u v = true) :
    records env u v = [(u, v)] := by rw [records, if_pos h]

/-- The records of a spanning value. -/
theorem mem_records_span (h : fits env u v = false) {f : List (List UInt8) × List UInt8} : f ∈ records env u v ↔ f = (u, nsbDummy) ∨
      f = (u ++ [controlSub], putNsbctrl (chunkCount env u v) v.length) ∨
        ∃ i, i < chunkCount env u v ∧ f = (u ++ [chunkSub i], chunk env u v i) := by
  rw [records, if_neg (by simp [h])]
  simp [eq_comm]

theorem owns_of_mem_records (hv : ValOk env u v) {f : List (List UInt8) × List UInt8} (hf : f ∈ records env u v) : Owns u (keyBytes f.1) := by
  cases hfit : fits env u v with
  | true =>
    rw [records_of_fits hfit, List.mem_singleton] at hf
    exact .inl (by rw [hf])
  | false =>
    rcases (mem_records_span hfit).1 hf with rfl | rfl | ⟨i, hi, rfl⟩
    · exact .inl rfl
    · exact .inr ⟨_, controlSub_hidden, rfl⟩
    · exact .inr ⟨_, chunkSub_hidden (hi.trans hv.count_lt), rfl⟩

/-! ### What the store holds -/

section
variable {env : GvEnv} {std : Bool} {S A : Store} {u : List (List UInt8)}

section
variable (hR : Rep env std S A)
include hR

/-- Every record belongs to a node that has a value. -/
theorem Rep.owned {e : List UInt8 × List UInt8} (he : e ∈ S) : ∃ u v, NodeSubs std u ∧ (keyBytes u, v) ∈ A ∧ Owns u e.1 := by
  obtain ⟨u, v, hu, hA, f, hf, rfl⟩ := (hR.mem e).1 he
  obtain ⟨w, hw, heq, hv⟩ := hR.nodes _ hA
  obtain rfl : u = w := (keyBytes_inj hu.free hw.free).1 heq
  exact ⟨u, v, hu, hA, owns_of_mem_records hv hf⟩

theorem Rep.valOk (hu : NodeSubs std u) {v : List UInt8} (hA : (keyBytes u, v) ∈ A) : ValOk env u v := by
  obtain ⟨w, hw, heq, hv⟩ := hR.nodes _ hA
  obtain rfl : u = w := (keyBytes_inj hu.free hw.free).1 heq
  exact hv

/-- The records that belong to a node are those of its value. -/
theorem Rep.mem_of_owns (hu : NodeSubs std u) {e : List UInt8 × List UInt8} (ho : Owns u e.1) :
    e ∈ S ↔ ∃ v, (keyBytes u, v) ∈ A ∧ ∃ f ∈ records env u v, e = (keyBytes f.1, f.2) := by
  rw [hR.mem]
  constructor
  · rintro ⟨w, v, hw, hA, f, hf, rfl⟩
    obtain rfl := owns_unique hu hw ho (owns_of_mem_records (hR.valOk hw hA) hf)
    exact ⟨v, hA, f, hf, rfl⟩
  · rintro ⟨v, hA, f, hf, rfl⟩
    exact ⟨u, v, hu, hA, f, hf, rfl⟩

/-- The record under the key of a node holds its value or the dummy. -/
theorem Rep.mem_node (hu : NodeSubs std u) {x : List UInt8} :
    (keyBytes u, x) ∈ S ↔ ∃ v, (keyBytes u, v) ∈ A ∧ x = if fits env u v then v else nsbDummy := by
  rw [hR.mem_of_owns hu (.inl rfl)]
  refine exists_congr fun v => and_congr_right fun hA => ?_
  have hv := hR.valOk hu hA
  cases hfit : fits env u v with
  | true =>
    rw [records_of_fits hfit]
    simp
  | false =>
    simp only [mem_records_span hfit, Bool.false_eq_true, if_false]
    constructor
    · rintro ⟨f, rfl | rfl | ⟨i, hi, rfl⟩, heq⟩
      · exact (Prod.ext_iff.1 heq).2
      · have := (keyBytes_inj hu.free (hu.hidden_free controlSub_hidden)).1 (Prod.ext_iff.1 heq).1
        exact absurd this (hu.ne_hidden hu.ne_nil controlSub_hidden)
      · have hh := chunkSub_hidden (hi.trans hv.count_lt)
        have := (keyBytes_inj hu.free (hu.hidden_free hh)).1 (Prod.ext_iff.1 heq).1
        exact absurd this (hu.ne_hidden hu.ne_nil hh)
    · rintro rfl
      exact ⟨_, .inl rfl, rfl⟩

/-- The hidden records of a node are the control record and the chunks of a value that does not fit. -/
theorem Rep.mem_hidden (hu : NodeSubs std u) {h x : List UInt8} (hh : HiddenSub h) :
    (keyBytes (u ++ [h]), x) ∈ S ↔ ∃ v, (keyBytes u, v) ∈ A ∧ fits env u v = false ∧
      ((h = controlSub ∧ x = putNsbctrl (chunkCount env u v) v.length) ∨
        ∃ i, i < chunkCount env u v ∧ h = chunkSub i ∧ x = chunk env u v i) := by
  rw [hR.mem_of_owns hu (.inr ⟨h, hh, rfl⟩)]
  refine exists_congr fun v => and_congr_right fun hA => ?_
  have hv := hR.valOk hu hA
  have hsub : ∀ h', HiddenSub h' → (keyBytes (u ++ [h]) = keyBytes (u ++ [h']) ↔ h = h') := by
    intro h' hh'
    rw [keyBytes_inj (hu.hidden_free hh) (hu.hidden_free hh')]
    simp
  cases hfit : fits env u v with
  | true =>
    rw [records_of_fits hfit]
    simp only [List.mem_singleton, exists_eq_left, Bool.true_eq_false, false_and, iff_false]
    intro heq
    exact hu.ne_hidden hu.ne_nil hh ((keyBytes_inj (hu.hidden_free hh) hu.free).1 (Prod.ext_iff.1 heq).1).symm
  | false =>
    simp only [mem_records_span hfit, true_and]
    constructor
    · rintro ⟨f, rfl | rfl | ⟨i, hi, rfl⟩, heq⟩
      · have := (keyBytes_inj (hu.hidden_free hh) hu.free).1 (Prod.ext_iff.1 heq).1
        exact absurd this.symm (hu.ne_hidden hu.ne_nil hh)
      · exact .inl ⟨(hsub _ controlSub_hidden).1 (Prod.ext_iff.1 heq).1, (Prod.ext_iff.1 heq).2⟩
      · exact .inr ⟨i, hi, (hsub _ (chunkSub_hidden (hi.trans hv.count_lt))).1 (Prod.ext_iff.1 heq).1, (Prod.ext_iff.1 heq).2⟩
    · rintro (⟨rfl, rfl⟩ | ⟨i, hi, rfl, rfl⟩)
      · exact ⟨_, .inr (.inl rfl), rfl⟩
      · exact ⟨_, .inr (.inr ⟨i, hi, rfl⟩), rfl⟩

/-- A set of whole nodes taken out of the store and out of the map. -/
theorem Rep.remove {S' : Store} (hS' : Sorted S') (P : List UInt8 → Prop) (p : List UInt8 → Bool)
    (hmem : ∀ e, e ∈ S' ↔ e ∈ S ∧ ¬ P e.1) (hP : ∀ w x, NodeSubs std w → Owns w x → (P x ↔ p (keyBytes w) = true)) :
    Rep env std S' (remove p A) := by
  refine ⟨hS', hR.sorted_abs.remove p, fun e he => hR.nodes e (mem_remove.1 he).1, ?_⟩
  intro e
  rw [hmem, hR.mem]
  constructor
  · rintro ⟨⟨w, v, hw, hA, f, hf, rfl⟩, hPx⟩
    refine ⟨w, v, hw, mem_remove.2 ⟨hA, ?_⟩, f, hf, rfl⟩
    rw [hP w _ hw (owns_of_mem_records (hR.valOk hw hA) hf)] at hPx
    simpa using hPx
  · rintro ⟨w, v, hw, hA, f, hf, rfl⟩
    obtain ⟨hA, hp⟩ := mem_remove.1 hA
    refine ⟨⟨w, v, hw, hA, f, hf, rfl⟩, ?_⟩
    rw [hP w _ hw (owns_of_mem_records (hR.valOk hw hA) hf)]
    simpa using hp

/-- The records of a new value in place of all that belonged to the node. -/
theorem Rep.insert {S' : Store} (hS' : Sorted S') (hu : NodeSubs std u) {v : List UInt8} (hv : ValOk env u v)
    (hmem : ∀ e, e ∈ S' ↔ (∃ f ∈ records env u v, e = (keyBytes f.1, f.2)) ∨ (e ∈ S ∧ ¬ Owns u e.1)) :
    Rep env std S' (insert (keyBytes u) v A) := by
  refine ⟨hS', hR.sorted_abs.insert _ _, ?_, ?_⟩
  · intro e he
    rcases (mem_insert hR.sorted_abs).1 he with rfl | ⟨he, -⟩
    · exact ⟨u, hu, rfl, hv⟩
    · exact hR.nodes e he
  · intro e
    rw [hmem, hR.mem]
    constructor
    · rintro (⟨f, hf, rfl⟩ | ⟨⟨w, x, hw, hA, f, hf, rfl⟩, ho⟩)
      · exact ⟨u, v, hu, (mem_insert hR.sorted_abs).2 (.inl rfl), f, hf, rfl⟩
      · refine ⟨w, x, hw, (mem_insert hR.sorted_abs).2 (.inr ⟨hA, ?_⟩), f, hf, rfl⟩
        intro heq
        obtain rfl := (keyBytes_inj hw.free hu.free).1 heq
        exact ho (owns_of_mem_records (hR.valOk hw hA) hf)
    · rintro ⟨w, x, hw, hA, f, hf, rfl⟩
      rcases (mem_insert hR.sorted_abs).1 hA with heq | ⟨hA, hne⟩
      · obtain ⟨h1, rfl⟩ := Prod.ext_iff.1 heq
        obtain rfl := (keyBytes_inj hw.free hu.free).1 h1
        exact .inl ⟨f, hf, rfl⟩
      · refine .inr ⟨⟨w, x, hw, hA, f, hf, rfl⟩, ?_⟩
        intro ho
        obtain rfl := owns_unique hu hw ho (owns_of_mem_records (hR.valOk hw hA) hf)
        exact hne rfl

end

end

end Gtm

/-!
## Sets and kills over spanning nodes

What `gvcst_put` and `gvcst_kill` do to a store that keeps a map of whole values: they set or remove the value in the map and
leave `gv_currkey` as it was.
-/

namespace Gtm

open SortedMap LexOrder Terminated

/-- The keys a kill reaches: the node alone, or every key that begins with it. -/
def killReaches (k : GvKey) (doSubtree : Bool) (x : List UInt8) : Bool :=
  if doSubtree then k.base.isPrefixOf x else x == k.bytes

/-- Every record of the store belongs to some node. -/
def OwnedKeys (std : Bool) (S : Store) : Prop := ∀ e ∈ S, ∃ w, NodeSubs std w ∧ Owns w e.1

section
variable {env : GvEnv} {std : Bool} {S A : Store} {u : List (List UInt8)} {k : GvKey}

theorem Rep.ownedKeys (hR : Rep env std S A) : OwnedKeys std S := by
  intro e he
  obtain ⟨w, -, hw, -, ho⟩ := hR.owned he
  exact ⟨w, hw, ho⟩

theorem OwnedKeys.insert (hK : OwnedKeys std S) (hS : Sorted S) (hu : NodeSubs std u) (x : List UInt8) :
    OwnedKeys std (insert (keyBytes u) x S) := by
  intro e he
  rcases (mem_insert hS).1 he with rfl | ⟨he, -⟩
  · exact ⟨u, hu, .inl rfl⟩
  · exact hK e he

variable {w : List (List UInt8)} {x : List UInt8} {key : GvKey} {e : List UInt8 × List UInt8}

/-- The list of subscripts a key belongs to is one of bytes above the delimiter. -/
theorem Owns.exists_free (hw : NodeSubs std w) (ho : Owns w x) :
    ∃ y, Free keyDelimiter y ∧ x = keyBytes y ∧ (y = w ∨ ∃ h, HiddenSub h ∧ y = w ++ [h]) := by
  rcases ho with rfl | ⟨h, hh, rfl⟩
  · exact ⟨w, hw.free, rfl, .inl rfl⟩
  · exact ⟨w ++ [h], hw.hidden_free hh, rfl, .inr ⟨h, hh, rfl⟩⟩

/-- A list of subscripts with one more, given by its bytes. -/
theorem Free.concat (hw : Free keyDelimiter w) {t : List UInt8} (hne : t ≠ [])
    (hall : t.all (fun x => decide (keyDelimiter < x)) = true) : Free keyDelimiter (w ++ [t]) := by
  refine hw.append ?_
  intro r hr
  rw [List.mem_singleton.1 hr]
  refine ⟨hne, ?_⟩
  intro x hx
  exact of_decide_eq_true (List.all_eq_true.1 hall x hx)

section
variable (hu : NodeSubs std u)
include hu

theorem free_append_one : Free keyDelimiter (u ++ [[1]]) := Free.concat hu.free (by simp) (by decide)

theorem free_append_highest : Free keyDelimiter (u ++ [[2, 0xFF, 0xFF]]) := Free.concat hu.free (by simp) (by decide)

/-! ### The ranges of the three kills -/

theorem node_range_iff (hk : k.base = keyBase u)
    (hw : NodeSubs std w) (ho : Owns w x) : (k.bytes ≤ x ∧ x < killAltkey k false false) ↔ x = keyBytes u := by
  obtain ⟨y, hy, rfl, -⟩ := ho.exists_free hw
  rw [killAltkey_node hk, GvKey.bytes, hk]
  change keyBytes u ≤ keyBytes y ∧ _ ↔ _
  rw [keyBytes_le_iff hu.free hy, keyBytes_lt_iff hy (free_append_one hu), keyBytes_inj hy hu.free]
  constructor
  · rintro ⟨h1, h2⟩
    exact eq_of_node_range hy h1 h2
  · rintro rfl
    exact ⟨le_rfl, lt_append_cons _ [1] []⟩

theorem chunks_range_iff (hk : key.base = keyBase (u ++ [controlSub])) (hw : NodeSubs std w) (ho : Owns w x) :
    (key.bytes ≤ x ∧ x < killAltkey key false true) ↔ ∃ h, HiddenSub h ∧ x = keyBytes (u ++ [h]) := by
  obtain ⟨y, hy, rfl, hcase⟩ := ho.exists_free hw
  rw [killAltkey_chunks hk, GvKey.bytes, hk]
  change keyBytes (u ++ [controlSub]) ≤ keyBytes y ∧ _ ↔ _
  rw [keyBytes_le_iff (hu.hidden_free controlSub_hidden) hy, keyBytes_lt_iff hy (free_append_highest hu)]
  constructor
  · rintro ⟨h1, h2⟩
    obtain ⟨r, rest, rfl, hr1, hr2⟩ := exists_of_range h1 h2
    rcases hcase with rfl | ⟨h, hh, heq⟩
    · exact ((NodeSubs.sub_of_append hu.ne_nil hw).not_between hr1 hr2.le).elim
    · -- the hidden subscript is the last one, so `r` is it
      cases rest using List.reverseRecOn with
      | nil =>
        obtain ⟨rfl, hrh⟩ := List.append_inj' heq rfl
        obtain rfl : r = h := by simpa using hrh
        exact ⟨r, hh, rfl⟩
      | append_singleton rest l =>
        have heq' : (u ++ r :: rest) ++ [l] = w ++ [h] := by simpa using heq
        obtain ⟨rfl, -⟩ := List.append_inj' heq' rfl
        exact ((NodeSubs.sub_of_append hu.ne_nil hw).not_between hr1 hr2.le).elim
  · rintro ⟨h, hh, heq⟩
    rw [keyBytes_inj hy (hu.hidden_free hh)] at heq
    rw [heq, append_left_le_iff, append_left_lt_iff, cons_le_cons_iff, List.cons_lt_cons_iff]
    refine ⟨?_, .inl hh.lt_highest⟩
    rcases hh.lowest_le.lt_or_eq with h | h
    · exact .inl h
    · exact .inr ⟨h, le_rfl⟩

theorem subtree_range_iff' (hk : k.base = keyBase u) (b : Bool)
    (hw : NodeSubs std w) (ho : Owns w x) : (k.bytes ≤ x ∧ x < killAltkey k true b) ↔ u <+: w := by
  obtain ⟨y, hy, rfl, hcase⟩ := ho.exists_free hw
  have hyw : u <+: y ↔ u <+: w := by
    rcases hcase with rfl | ⟨h, hh, rfl⟩
    · rfl
    · exact ⟨hu.prefix_of_hidden hw.ne_nil hh, fun hp => hp.trans (List.prefix_append _ _)⟩
  obtain ⟨q, s, rfl⟩ : ∃ q s, u = q ++ [s] := ⟨_, _, (List.dropLast_append_getLast hu.ne_nil).symm⟩
  have hs1 : Free keyDelimiter (q ++ [s ++ [1]]) := by
    intro r hr
    rcases List.mem_append.1 hr with hr | hr
    · exact hu.free r (by simp [hr])
    · rw [List.mem_singleton.1 hr]
      refine ⟨by simp, ?_⟩
      intro z hz
      rcases List.mem_append.1 hz with hz | hz
      · exact (hu.free s (by simp)).2 z hz
      · rw [List.mem_singleton.1 hz]
        decide
  rw [killAltkey_subtree hk, GvKey.bytes, hk]
  change keyBytes (q ++ [s]) ≤ keyBytes y ∧ _ ↔ _
  rw [keyBytes_le_iff hu.free hy, keyBytes_lt_iff hy hs1, subtree_range_iff hy, hyw]

end

/-! ### Kills -/

theorem mem_remove_range (p : List UInt8 → Prop) {lo hi : List UInt8} (h : e ∈ S → ((lo ≤ e.1 ∧ e.1 < hi) ↔ p e.1)) :
    e ∈ remove (fun x => decide (lo ≤ x) && decide (x < hi)) S ↔ e ∈ S ∧ ¬ p e.1 := by
  rw [mem_remove]
  refine and_congr_right fun he => ?_
  rw [Bool.and_eq_false_iff, decide_eq_false_iff_not, decide_eq_false_iff_not]
  tauto

theorem holdsDummy_iff (hS : Sorted S) (hk : k.base = keyBase u) : holdsDummy S k = true ↔ (keyBytes u, nsbDummy) ∈ S := by
  rw [holdsDummy, GvKey.bytes, hk, ← lookup_eq_some_iff hS]
  change (lookup (keyBytes u) S).any isSnDummy = true ↔ _
  cases lookup (keyBytes u) S with
  | none => simp
  | some v => simp [isSnDummy, nsbDummy]

/-- Where the record of a node is not a dummy the node has no hidden records. -/
theorem Rep.no_hidden (hR : Rep env std S A) (hu : NodeSubs std u) (hd : (keyBytes u, nsbDummy) ∉ S) {h : List UInt8}
    (hh : HiddenSub h) : (keyBytes (u ++ [h]), x) ∉ S := by
  intro hx
  obtain ⟨v, hA, hfit, -⟩ := (hR.mem_hidden hu hh).1 hx
  exact hd ((hR.mem_node hu).2 ⟨v, hA, by simp [hfit]⟩)

/-- The bytes of a key cut back behind whatever was appended to it. -/
theorem restoreCurrkey_eq (hk : k.base = keyBase u) (hu : u ≠ []) (z : List UInt8) :
    restoreCurrkey { k with base := keyBase u ++ z } k.kend = k := by
  obtain ⟨q, s, rfl⟩ : ∃ q s, u = q ++ [s] := ⟨_, _, (List.dropLast_append_getLast hu).symm⟩
  have hb : keyBase (q ++ [s]) = (keyBase q ++ s) ++ [keyDelimiter] := by simp
  have htake : (keyBase (q ++ [s]) ++ z).take (k.kend - 1) = keyBase q ++ s := by
    have hlen : k.kend - 1 = (keyBase q ++ s).length := by simp [GvKey.kend, hk]
    rw [hb, List.append_assoc, hlen]
    exact List.take_left
  rw [restoreCurrkey]
  rw [htake, ← hb, ← hk]

theorem appendHiddenSub_eq (hk : k.base = keyBase u) : appendHiddenSub k = { k with base := keyBase u ++ keyBase [controlSub] } := by
  simp [appendHiddenSub, hk, controlSub]

/-- The hidden records of a node removed. -/
theorem mem_killed_chunks (hK : OwnedKeys std S) (hu : NodeSubs std u) (hk : k.base = keyBase u) :
    e ∈ (gvcstKill2 true S (appendHiddenSub k) false false true).1 ↔ e ∈ S ∧ ¬ ∃ h, HiddenSub h ∧ e.1 = keyBytes (u ++ [h]) := by
  have hkey : (appendHiddenSub k).base = keyBase (u ++ [controlSub]) := by simp [appendHiddenSub_eq hk]
  refine mem_remove_range (fun x => ∃ h, HiddenSub h ∧ x = keyBytes (u ++ [h])) ?_
  intro he
  obtain ⟨w, hw, ho⟩ := hK e he
  exact chunks_range_iff hu hkey hw ho

theorem zkillNodelets_spec (hK : OwnedKeys std S) (hu : NodeSubs std u) (hk : k.base = keyBase u) :
    (zkillNodelets S k).2 = k ∧ ∀ e, e ∈ (zkillNodelets S k).1 ↔ e ∈ S ∧ ¬ ∃ h, HiddenSub h ∧ e.1 = keyBytes (u ++ [h]) := by
  constructor
  · change restoreCurrkey (appendHiddenSub k) k.kend = k
    rw [appendHiddenSub_eq hk]
    exact restoreCurrkey_eq hk hu.ne_nil _
  · intro e
    exact mem_killed_chunks hK hu hk

theorem gvcstKill2_sorted (inTp : Bool) (hS : Sorted S) (a b c : Bool) : Sorted (gvcstKill2 inTp S k a b c).1 := by
  simp only [gvcstKill2]
  split <;> dsimp only
  · cases inTp
    · exact hS
    · exact hS.remove (fun x => decide (k.bytes ≤ x) && decide (x < killAltkey k a c))
  · exact hS.remove _

section
variable (inTp : Bool) (s : GvState) (hR : Rep env std s.store A) (hu : NodeSubs std u) (hk : s.currkey.base = keyBase u)
include inTp s hR hu hk

/-- A node killed: its own record is removed first, then the hidden ones where that record was a dummy. -/
theorem gvcstKill_node : (gvcstKill inTp s false).currkey = s.currkey ∧ (gvcstKill inTp s false).altkey = s.altkey ∧
      Rep env std (gvcstKill inTp s false).store (remove (killReaches s.currkey false) A) := by
  have hown : ∀ w x, NodeSubs std w → Owns w x → (Owns u x ↔ killReaches s.currkey false (keyBytes w) = true) := by
    intro w x hw ho
    have hbytes : s.currkey.bytes = keyBytes u := by rw [GvKey.bytes, hk, keyBytes]
    simp only [killReaches, Bool.false_eq_true, if_false, hbytes, beq_iff_eq]
    rw [keyBytes_inj hw.free hu.free]
    constructor
    · intro h
      exact owns_unique hw hu ho h
    · rintro rfl
      exact ho
  -- the records other than the node's own one
  obtain ⟨killed, hkilled⟩ : ∃ m, m = remove (fun x => decide (s.currkey.bytes ≤ x) &&
    decide (x < killAltkey s.currkey false false)) s.store := ⟨_, rfl⟩
  have hmem : ∀ e, e ∈ killed ↔ e ∈ s.store ∧ ¬ e.1 = keyBytes u := by
    intro e
    rw [hkilled]
    refine mem_remove_range (fun x => x = keyBytes u) ?_
    intro he
    obtain ⟨w, hw, ho⟩ := hR.ownedKeys e he
    exact node_range_iff hu hk hw ho
  have hsorted : Sorted killed := by
    rw [hkilled]
    exact hR.sorted.remove _
  cases hd : holdsDummy s.store s.currkey with
  | false =>
    have hst : gvcstKill inTp s false = { s with store := killed } := by
      simp [gvcstKill, gvcstKill2, hd, hkilled]
    rw [hst]
    refine ⟨rfl, rfl, hR.remove hsorted (Owns u) _ ?_ hown⟩
    intro e
    rw [hmem]
    refine and_congr_right fun he => not_congr ⟨.inl, ?_⟩
    rintro (h | ⟨h, hh, hx⟩)
    · exact h
    · have hnd : (keyBytes u, nsbDummy) ∉ s.store := by
        rw [← holdsDummy_iff hR.sorted hk, hd]
        simp
      exact absurd (by rw [← hx]; exact he) (hR.no_hidden hu hnd (x := e.2) hh)
  | true =>
    have hst : gvcstKill inTp s false =
        { s with store := (gvcstKill2 true killed (appendHiddenSub s.currkey) false false true).1,
                 currkey := restoreCurrkey (appendHiddenSub s.currkey) s.currkey.kend } := by
      cases inTp <;> simp [gvcstKill, gvcstKill2, hd, hkilled]
    have hK : OwnedKeys std killed := fun e he => hR.ownedKeys e ((hmem e).1 he).1
    rw [hst]
    refine ⟨?_, rfl, hR.remove (gvcstKill2_sorted _ hsorted _ _ _) (Owns u) _ ?_ hown⟩
    · rw [appendHiddenSub_eq hk]
      exact restoreCurrkey_eq hk hu.ne_nil _
    · intro e
      rw [mem_killed_chunks hK hu hk, hmem, and_assoc, Owns, not_or]

/-- A subtree killed: the range takes the hidden records with it. -/
theorem gvcstKill_subtree : (gvcstKill inTp s true).currkey = s.currkey ∧ (gvcstKill inTp s true).altkey = s.altkey ∧
      Rep env std (gvcstKill inTp s true).store (remove (killReaches s.currkey true) A) := by
  have hst : gvcstKill inTp s true = { s with store := remove (fun x => decide (s.currkey.bytes ≤ x) &&
      decide (x < killAltkey s.currkey true false)) s.store } := by
    simp [gvcstKill, gvcstKill2]
  rw [hst]
  dsimp only
  refine ⟨rfl, rfl, hR.remove (hR.sorted.remove _)
    (fun x => s.currkey.bytes ≤ x ∧ x < killAltkey s.currkey true false) _ ?_ ?_⟩
  · intro e
    exact mem_remove_range (fun x => s.currkey.bytes ≤ x ∧ x < killAltkey s.currkey true false) fun _ => Iff.rfl
  · intro w x hw ho
    rw [subtree_range_iff' hu hk false hw ho, killReaches, if_pos rfl, List.isPrefixOf_iff_prefix, hk, keyBase_prefix_iff hu.free hw.free]

end

/-! ### Sets -/

theorem computeChunkSize_congr (k k' : GvKey) (h : k.base = k'.base) : computeChunkSize env k = computeChunkSize env k' := by
  simp [computeChunkSize, GvKey.kend, h]

theorem recordFits_eq (hk : k.base = keyBase u) (v : List UInt8) : recordFits env k v = fits env u v := by
  rw [fits, recordFits, recordFits, computeChunkSize_congr k (nodeKey u) hk]

theorem chunkSize_eq (hk : k.base = keyBase u) : (computeChunkSize env (appendHiddenSub k)).toNat = chunkSize env u := by
  have h : (appendHiddenSub k).base = (nodeKey (u ++ [controlSub])).base := by simp [appendHiddenSub_eq hk, nodeKey]
  rw [chunkSize, computeChunkSize_congr _ _ h]

/-- `key` is `k` with a hidden subscript behind it. -/
def IsHiddenOf (k : GvKey) (u : List (List UInt8)) (key : GvKey) : Prop :=
  ∃ a b, key = { k with base := keyBase u ++ keyBase [[2, a, b]] }

theorem isHiddenOf_append (hk : k.base = keyBase u) : IsHiddenOf k u (appendHiddenSub k) := ⟨1, 1, appendHiddenSub_eq hk⟩

section
variable (h : IsHiddenOf k u key)
include h

theorem IsHiddenOf.next (i : ℕ) : nextHiddenSub key i = { k with base := keyBase u ++ keyBase [chunkSub i] } := by
  obtain ⟨a, b, rfl⟩ := h
  simp [nextHiddenSub, GvKey.kend, chunkSub]

theorem isHiddenOf_next (i : ℕ) : IsHiddenOf k u (nextHiddenSub key i) := ⟨_, _, h.next i⟩

theorem IsHiddenOf.next_bytes (i : ℕ) : (nextHiddenSub key i).bytes = keyBytes (u ++ [chunkSub i]) := by
  rw [h.next i]
  simp [GvKey.bytes, keyBytes]

theorem IsHiddenOf.restore (hk : k.base = keyBase u) (hu : u ≠ []) : restoreCurrkey key k.kend = k := by
  obtain ⟨a, b, rfl⟩ := h
  exact restoreCurrkey_eq hk hu _

end

theorem keyBytes_chunk_inj (hu : NodeSubs std u) {i j : ℕ} (hi : i < 65000) (hj : j < 65000) :
    keyBytes (u ++ [chunkSub i]) = keyBytes (u ++ [chunkSub j]) ↔ i = j := by
  rw [keyBytes_inj (hu.hidden_free (chunkSub_hidden hi)) (hu.hidden_free (chunkSub_hidden hj))]
  constructor
  · intro h
    exact chunkSub_inj hi hj (by simpa using h)
  · rintro rfl
    rfl

/-- The chunks from `i` on set one after the other. -/
theorem putChunks_spec (hu : NodeSubs std u) (v : List UInt8) (c cnt i : ℕ) (hcnt : i + cnt ≤ 65000) (S : Store) (key : GvKey)
    (hS : Sorted S) (hkey : IsHiddenOf k u key) : Sorted (putChunks v c cnt i S key).1 ∧ IsHiddenOf k u (putChunks v c cnt i S key).2 ∧
      ∀ e, e ∈ (putChunks v c cnt i S key).1 ↔ (∃ j, (i ≤ j ∧ j < i + cnt) ∧ e = (keyBytes (u ++ [chunkSub j]), (v.drop (j * c)).take c)) ∨
          (e ∈ S ∧ ∀ j, i ≤ j → j < i + cnt → e.1 ≠ keyBytes (u ++ [chunkSub j])) := by
  induction cnt generalizing i S key with
  | zero =>
    refine ⟨hS, hkey, ?_⟩
    intro e
    constructor
    · intro he
      exact .inr ⟨he, fun j h1 h2 => by omega⟩
    · rintro (⟨j, hj, -⟩ | ⟨he, -⟩)
      · omega
      · exact he
  | succ cnt ih =>
    have hput : (gvcstPut2 S (nextHiddenSub key i) ((v.drop (i * c)).take c) true).1 =
        insert (keyBytes (u ++ [chunkSub i])) ((v.drop (i * c)).take c) S := by
      rw [gvcstPut2, if_neg (by simp), hkey.next_bytes i]
    obtain ⟨h1, h2, h3⟩ := ih (i + 1) (by omega) _ _ (hS.insert _ ((v.drop (i * c)).take c)) (isHiddenOf_next hkey i)
    rw [putChunks, hput]
    refine ⟨h1, h2, ?_⟩
    intro e
    rw [h3, mem_insert hS]
    constructor
    · rintro (⟨j, hj, rfl⟩ | ⟨rfl | ⟨he, hne⟩, hj⟩)
      · exact .inl ⟨j, by omega, rfl⟩
      · exact .inl ⟨i, by omega, rfl⟩
      · refine .inr ⟨he, ?_⟩
        intro j hj1 hj2
        rcases hj1.eq_or_lt with rfl | hlt
        · exact hne
        · exact hj j hlt (by omega)
    · rintro (⟨j, hj, rfl⟩ | ⟨he, hj⟩)
      · rcases hj.1.eq_or_lt with rfl | hlt
        · refine .inr ⟨.inl rfl, ?_⟩
          intro l hl1 hl2 heq
          rw [keyBytes_chunk_inj hu (by omega) (by omega)] at heq
          omega
        · exact .inl ⟨j, by omega, rfl⟩
      · exact .inr ⟨.inr ⟨he, hj i le_rfl (by omega)⟩, fun j h1 h2 => hj j (by omega) (by omega)⟩

/-- The record of a node set and its hidden records removed. -/
theorem mem_put_zkill (hR : Rep env std S A) (hu : NodeSubs std u) (hk : k.base = keyBase u) (x : List UInt8) : e ∈ (zkillNodelets (insert (keyBytes u) x S) k).1 ↔
      e = (keyBytes u, x) ∨ (e ∈ S ∧ ¬ Owns u e.1) := by
  rw [(zkillNodelets_spec (hR.ownedKeys.insert hR.sorted hu x) hu hk).2, mem_insert hR.sorted, Owns, not_or, or_and_right, and_assoc]
  refine or_congr_left (and_iff_left_of_imp ?_)
  rintro rfl ⟨h, hh, heq⟩
  exact hu.ne_hidden hu.ne_nil hh ((keyBytes_inj hu.free (hu.hidden_free hh)).1 heq)

/-- The control record and the chunks set behind the dummy record. -/
theorem mem_put_span (hu : NodeSubs std u) {v : List UInt8} (hv : ValOk env u v) (hfit : fits env u v = false) {T T' : Store}
    {O : List UInt8 × List UInt8 → Prop} (hO : ∀ e, O e → ¬ Owns u e.1) (hT : Sorted T) (hmem : ∀ e, e ∈ T ↔ e = (keyBytes u, nsbDummy) ∨ O e)
    (hmem' : ∀ e, e ∈ T' ↔ (∃ j, (0 ≤ j ∧ j < 0 + chunkCount env u v) ∧ e = (keyBytes (u ++ [chunkSub j]), chunk env u v j)) ∨
      (e ∈ insert (keyBytes (u ++ [controlSub])) (putNsbctrl (chunkCount env u v) v.length) T ∧
        ∀ j, 0 ≤ j → j < 0 + chunkCount env u v → e.1 ≠ keyBytes (u ++ [chunkSub j])))
    (e : List UInt8 × List UInt8) : e ∈ T' ↔ (∃ f ∈ records env u v, e = (keyBytes f.1, f.2)) ∨ O e := by
  have hcount := hv.count_lt
  have hctl : ∀ h, HiddenSub h → keyBytes u ≠ keyBytes (u ++ [h]) := by
    intro h hh heq
    exact hu.ne_hidden hu.ne_nil hh ((keyBytes_inj hu.free (hu.hidden_free hh)).1 heq)
  have hother : ∀ h, HiddenSub h → O e → e.1 ≠ keyBytes (u ++ [h]) := by
    intro h hh ho heq
    exact hO e ho (.inr ⟨h, hh, heq⟩)
  rw [hmem', mem_insert hT, hmem]
  simp only [mem_records_span hfit]
  constructor
  · rintro (⟨j, hj, rfl⟩ | ⟨rfl | ⟨rfl | ho, -⟩, -⟩)
    · exact .inl ⟨_, .inr (.inr ⟨j, by omega, rfl⟩), rfl⟩
    · exact .inl ⟨_, .inr (.inl rfl), rfl⟩
    · exact .inl ⟨_, .inl rfl, rfl⟩
    · exact .inr ho
  · rintro (⟨f, rfl | rfl | ⟨j, hj, rfl⟩, rfl⟩ | ho)
    · refine .inr ⟨.inr ⟨.inl rfl, hctl _ controlSub_hidden⟩, ?_⟩
      intro j _ hj
      exact hctl _ (chunkSub_hidden (by omega))
    · refine .inr ⟨.inl rfl, ?_⟩
      intro j _ hj heq
      have hj' : j < 65000 := by omega
      rw [keyBytes_inj (hu.hidden_free controlSub_hidden) (hu.hidden_free (chunkSub_hidden hj'))] at heq
      exact chunkSub_ne_control hj' (by simpa using heq.symm)
    · exact .inl ⟨j, by omega, rfl⟩
    · refine .inr ⟨.inr ⟨.inr ho, hother _ controlSub_hidden ho⟩, ?_⟩
      intro j _ hj
      exact hother _ (chunkSub_hidden (by omega)) ho

/-- A value set under a key. -/
theorem gvcstPut_spec (s : GvState) (hR : Rep env std s.store A) (hu : NodeSubs std u) (hk : s.currkey.base = keyBase u)
    {v : List UInt8} (hv : ValOk env u v) : (gvcstPut env s v).currkey = s.currkey ∧ (gvcstPut env s v).altkey = s.altkey ∧
      Rep env std (gvcstPut env s v).store (insert s.currkey.bytes v A) := by
  have hbytes : s.currkey.bytes = keyBytes u := by rw [GvKey.bytes, hk, keyBytes]
  have hz := fun x => (zkillNodelets_spec (hR.ownedKeys.insert hR.sorted hu x) hu hk).1
  have hzs : ∀ x, Sorted (zkillNodelets (insert (keyBytes u) x s.store) s.currkey).1 :=
    fun x => gvcstKill2_sorted true (hR.sorted.insert _ x) false false true
  rw [hbytes]
  cases hfit : fits env u v with
  | true =>
    have hrec : ∀ e : List UInt8 × List UInt8, (∃ f ∈ records env u v, e = (keyBytes f.1, f.2)) ↔ e = (keyBytes u, v) := by
      intro e
      simp [records_of_fits hfit]
    cases hd : holdsDummy s.store s.currkey with
    | false =>
      have hst : gvcstPut env s v = { s with store := insert (keyBytes u) v s.store } := by
        simp [gvcstPut, gvcstPut2, recordFits_eq hk, hfit, hd, hbytes]
      rw [hst]
      refine ⟨rfl, rfl, hR.insert (hR.sorted.insert _ _) hu hv ?_⟩
      intro e
      rw [mem_insert hR.sorted, hrec]
      refine or_congr_right (and_congr_right fun he => not_congr ⟨.inl, ?_⟩)
      rintro (h | ⟨h, hh, hx⟩)
      · exact h
      · have hnd : (keyBytes u, nsbDummy) ∉ s.store := by
          rw [← holdsDummy_iff hR.sorted hk, hd]
          simp
        exact absurd (by rw [← hx]; exact he) (hR.no_hidden hu hnd (x := e.2) hh)
    | true =>
      have hst : gvcstPut env s v = { s with store := (zkillNodelets (insert (keyBytes u) v s.store) s.currkey).1,
                                             currkey := (zkillNodelets (insert (keyBytes u) v s.store) s.currkey).2 } := by
        simp [gvcstPut, gvcstPut2, recordFits_eq hk, hfit, hd, hbytes]
      rw [hst]
      refine ⟨hz v, rfl, hR.insert (hzs v) hu hv ?_⟩
      intro e
      rw [mem_put_zkill hR hu hk, hrec]
  | false =>
    -- the store with the dummy record alone, and the key with the first hidden subscript
    obtain ⟨T, hT⟩ : ∃ T, T = (zkillNodelets (insert (keyBytes u) nsbDummy s.store) s.currkey).1 := ⟨_, rfl⟩
    obtain ⟨key, hkey⟩ : ∃ key, key = appendHiddenSub s.currkey := ⟨_, rfl⟩
    have hsize : (computeChunkSize env key).toNat = chunkSize env u := by rw [hkey, chunkSize_eq hk]
    have hkb : key.bytes = keyBytes (u ++ [controlSub]) := by
      rw [hkey, appendHiddenSub_eq hk]
      simp [GvKey.bytes, keyBytes]
    have hmod : (v.length + chunkSize env u - 1) / chunkSize env u % 65536 = chunkCount env u v :=
      Nat.mod_eq_of_lt (Nat.lt_trans hv.count_lt (by decide))
    have hTs : Sorted T := by
      rw [hT]
      exact hzs _
    obtain ⟨h1, h2, h3⟩ := putChunks_spec hu v (chunkSize env u) (chunkCount env u v) 0 (by have := hv.count_lt; omega) _ key
      (hTs.insert (keyBytes (u ++ [controlSub])) (putNsbctrl (chunkCount env u v) v.length)) (hkey ▸ isHiddenOf_append hk)
    have hst : gvcstPut env s v =
        { s with
          store := (putChunks v (chunkSize env u) (chunkCount env u v) 0
            (insert (keyBytes (u ++ [controlSub])) (putNsbctrl (chunkCount env u v) v.length) T) key).1,
          currkey := restoreCurrkey (putChunks v (chunkSize env u) (chunkCount env u v) 0
            (insert (keyBytes (u ++ [controlSub])) (putNsbctrl (chunkCount env u v) v.length) T) key).2 s.currkey.kend } := by
      simp only [gvcstPut, gvcstPut2, recordFits_eq hk, hfit, hbytes, hz, ← hkey, hkb, hsize, hmod, hT, Bool.false_eq_true,
        Bool.true_eq_false, if_false, false_and]
    rw [hst]
    refine ⟨h2.restore hk hu.ne_nil, rfl, hR.insert h1 hu hv ?_⟩
    refine mem_put_span hu hv hfit (O := fun e => e ∈ s.store ∧ ¬ Owns u e.1) (fun e h => h.2) hTs ?_ h3
    intro e
    rw [hT]
    exact mem_put_zkill hR hu hk nsbDummy

end

end Gtm
