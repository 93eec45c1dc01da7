import Gtm.Lemmas.LockTree
import Gtm.Lemmas.ShrhashTable
import Gtm.Theorems.HashChunks

/-!
# Filling the hash table of the lock tree again

The hash of a node is that of its subscripts from the top, each with its length before it. It does not matter whether they come packed
from a private block, piece by piece on a walk down the tree, or on a walk up to the top and back. So a table that is filled with
another seed finds every path where the old one found it.
-/

namespace Gtm

open ByteWords HashChunksAux

namespace LockRehashAux

/-! ## Hashes of paths -/

/-- The subscripts with their lengths before them, as a private block holds them. -/
def packed (subs : List (List UInt8)) : List UInt8 := subs.flatMap fun v => UInt8.ofNat v.length :: v

/-- The state after the subscripts of a path. -/
def Hashed (hashSeed : BitVec 64) (subs : List (List UInt8)) (state : Hash128State) : Prop :=
  Streamed state (feed 16 hashBlock (⟨hashSeed, hashSeed⟩, []) (packed subs))

/-- The hash of a path, in one piece. -/
def pathHash (hashSeed : BitVec 64) (subs : List (List UInt8)) : BitVec 32 :=
  mlkSubhashVal (gtmmrhash128Ingest true (mlkSubhashInit hashSeed) 0 (packed subs)) (BitVec.ofNat 32 (packed subs).length)

variable {hashSeed : BitVec 64} {subs pre : List (List UInt8)} {state : Hash128State}

theorem packed_append (subs subs' : List (List UInt8)) : packed (subs ++ subs') = packed subs ++ packed subs' := by simp [packed]

theorem packed_singleton (v : List UInt8) : packed [v] = UInt8.ofNat v.length :: v := by simp [packed]

theorem packed_cons (v : List UInt8) (subs : List (List UInt8)) : packed (v :: subs) = UInt8.ofNat v.length :: v ++ packed subs := by
  simp [packed]

/-- A state is determined by what it has taken in. -/
theorem Streamed.unique {state' : Hash128State} {s : GtmUint16 × List UInt8} (h : Streamed state s) (h' : Streamed state' s) :
    state = state' := by
  obtain ⟨hh, hone, htwo, hcarry⟩ := h.1
  obtain ⟨hh', hone', htwo', hcarry'⟩ := h'.1
  obtain ⟨st, ⟨c1, c2⟩, n⟩ := state
  obtain ⟨st', ⟨c1', c2'⟩, n'⟩ := state'
  simp only at hh hone htwo hcarry hh' hone' htwo' hcarry'
  rw [hh, hone, htwo, hcarry, hh', hone', htwo', hcarry']

theorem hashed_init (hashSeed : BitVec 64) : Hashed hashSeed [] (mlkSubhashInit hashSeed) := ⟨⟨rfl, rfl, rfl, rfl⟩, by simp [packed, feed]⟩

/-- One more subscript, in one piece. -/
theorem Hashed.snoc (h : Hashed hashSeed pre state) (unalignedSafe : Bool) (addr : Nat) (v : List UInt8) :
    Hashed hashSeed (pre ++ [v]) (gtmmrhash128Ingest unalignedSafe state addr (UInt8.ofNat v.length :: v)) := by
  rw [Hashed, packed_append, packed_singleton, feed_append]
  exact Streamed.ingest h unalignedSafe addr _

/-- One more subscript, its length first. -/
theorem Hashed.snoc_pieces (h : Hashed hashSeed pre state) (unalignedSafe : Bool) (addr addr' : Nat) (v : List UInt8) :
    Hashed hashSeed (pre ++ [v])
      (gtmmrhash128Ingest unalignedSafe (gtmmrhash128Ingest unalignedSafe state addr [UInt8.ofNat v.length]) addr' v) := by
  have hsplit : packed (pre ++ [v]) = packed pre ++ ([UInt8.ofNat v.length] ++ v) := by rw [packed_append, packed_singleton]; rfl
  rw [Hashed, hsplit, feed_append]
  exact Streamed.ingest (Streamed.ingest h unalignedSafe addr _) unalignedSafe addr' v

/-- Whatever pieces the path came in, its hash is that of the path. -/
theorem Hashed.val (h : Hashed hashSeed subs state) :
    mlkSubhashVal state (BitVec.ofNat 32 (packed subs).length) = pathHash hashSeed subs := by
  have hwhole := Streamed.ingest (hashed_init hashSeed) true 0 (packed subs)
  rw [pathHash, Streamed.unique h hwhole]

/-! ## The packed string of a private block -/

/-- The subscripts are short enough for their lengths to fit in a byte. -/
def Short (subs : List (List UInt8)) : Prop := ∀ v ∈ subs, v.length < 256

theorem drop_packed (v : List UInt8) (pre subs : List (List UInt8)) :
    (packed (pre ++ v :: subs)).drop (packed pre).length = UInt8.ofNat v.length :: v ++ packed subs := by
  rw [packed_append, List.drop_left, packed_cons]

theorem getD_packed {v : List UInt8} (hv : v.length < 256) (pre subs : List (List UInt8)) :
    ((packed (pre ++ v :: subs)).getD (packed pre).length 0).toNat = v.length := by
  rw [List.getD_eq_getElem?_getD, ← List.head?_drop, drop_packed]
  simp [Nat.mod_eq_of_lt hv]

theorem pvtblkSubhashLoop_spec (pl : HashPlaces) {value : List UInt8} (hvalue : value = packed (pre ++ subs)) (hshort : Short subs)
    (h : Hashed hashSeed pre state) : pvtblkSubhashLoop pl value subs.length (packed pre).length state =
      (List.range subs.length).map fun i => pathHash hashSeed (pre ++ subs.take (i + 1)) := by
  induction subs generalizing pre state with
  | nil => rfl
  | cons v subs ih =>
    have hlen := getD_packed (hshort v (by simp)) pre subs
    have hend : (packed pre).length + (v.length + 1) = (packed (pre ++ [v])).length := by simp [packed_append, packed_singleton]
    have htake : ((value.drop (packed pre).length).take (v.length + 1)) = UInt8.ofNat v.length :: v := by
      rw [hvalue, drop_packed, List.take_left' (by simp)]
    have hnext := h.snoc pl.unalignedSafe (pl.pvtValue + (packed pre).length) v
    rw [← hvalue] at hlen
    have hstep : pvtblkSubhashLoop pl value (subs.length + 1) (packed pre).length state =
        mlkSubhashVal (gtmmrhash128Ingest pl.unalignedSafe state (pl.pvtValue + (packed pre).length) (UInt8.ofNat v.length :: v))
            (BitVec.ofNat 32 (packed (pre ++ [v])).length) ::
          pvtblkSubhashLoop pl value subs.length (packed (pre ++ [v])).length
            (gtmmrhash128Ingest pl.unalignedSafe state (pl.pvtValue + (packed pre).length) (UInt8.ofNat v.length :: v)) := by
      simp only [pvtblkSubhashLoop, hlen, hend, htake]
    have hrest := ih (by rw [hvalue, List.append_assoc, List.singleton_append]) (fun w hw => hshort w (by simp [hw])) hnext
    rw [List.length_cons, hstep, hnext.val, hrest, List.range_succ_eq_map, List.map_cons]
    simp [Function.comp_def]

/-- The hashes of a private block are those of the paths to its subscripts. -/
theorem mlkPvtblkSubhashGen_eq (pl : HashPlaces) (hashSeed : BitVec 64) (hshort : Short subs) :
    mlkPvtblkSubhashGen pl hashSeed (packed subs) subs.length = (List.range subs.length).map fun i => pathHash hashSeed (subs.take (i + 1)) :=
  pvtblkSubhashLoop_spec pl rfl hshort (hashed_init hashSeed)

/-! ## The walk up from a node -/

/-- The subscripts of a node, by the parents of the blocks. -/
inductive Climbs (m : MlkHash) : Nat → List (List UInt8) → Prop
  | top {d : Nat} : (m.shrblk d).parent = 0 → Climbs m d [(m.shrblk d).value]
  | child {d : Nat} {subs : List (List UInt8)} : (m.shrblk d).parent ≠ 0 → Climbs m (m.shrblk d).parent subs →
      Climbs m d (subs ++ [(m.shrblk d).value])

variable {m m' : MlkHash} {e : Entry} {t : ShrForest (List UInt8)}

/-- The walk ends, and its state is that of the path. -/
theorem mlkShrhashValBuild_spec (pl : HashPlaces) {d : Nat} (h : Climbs m d subs) {k : Nat} (hk : subs.length ≤ k) (hashSeed : BitVec 64) :
    ∃ hs, mlkShrhashValBuild pl m k d (0, mlkSubhashInit hashSeed) = some (BitVec.ofNat 32 (packed subs).length, hs) ∧
      Hashed hashSeed subs hs := by
  induction h generalizing k with
  | @top d hp =>
    obtain ⟨k, rfl⟩ : ∃ n, k = n + 1 := ⟨k - 1, by simp at hk; omega⟩
    refine ⟨gtmmrhash128Ingest pl.unalignedSafe (mlkSubhashInit hashSeed) (pl.shrsub d + 8)
      (UInt8.ofNat (m.shrblk d).value.length :: (m.shrblk d).value), ?_, (hashed_init hashSeed).snoc _ _ _⟩
    simp [mlkShrhashValBuild, hp, packed_singleton]
  | @child d subs hp _ ih =>
    obtain ⟨k, rfl⟩ : ∃ n, k = n + 1 := ⟨k - 1, by simp at hk; omega⟩
    obtain ⟨hs, hrun, hhashed⟩ := ih (k := k) (by simp at hk; omega)
    refine ⟨_, ?_, hhashed.snoc pl.unalignedSafe (pl.shrsub d + 8) _⟩
    rw [mlkShrhashValBuild, if_pos hp, hrun]
    simp [packed_append, packed_singleton, BitVec.ofNat_add]

/-! ## The nodes of a tree -/

/-- A node with its path and the block of its parent. -/
structure Entry where
  parent : Nat
  path : List (List UInt8)
  idx : Nat

/-- The nodes of a ring below the node `parent`, whose path is `pre`. -/
def entries (parent : Nat) (pre : List (List UInt8)) : ShrForest (List UInt8) → List Entry
  | .empty => []
  | .node d children rsib =>
    ⟨parent, pre ++ [d.value], d.idx⟩ :: (entries d.idx (pre ++ [d.value]) children ++ entries parent pre rsib)

/-- The lock tree is in the blocks: each node has the block of its parent and its subscript, no block is used twice, and no two siblings
have the same subscript. -/
structure TreeOk (m : MlkHash) (t : ShrForest (List UInt8)) : Prop where
  pos : 0 < m.shrhashSize
  linked : ∀ e ∈ entries 0 [] t, e.idx ≠ 0 ∧ (m.shrblk e.idx).parent = e.parent ∧ e.path.getLast? = some (m.shrblk e.idx).value
  short : ∀ e ∈ entries 0 [] t, Short e.path
  nodup : ((entries 0 [] t).map Entry.idx).Nodup
  distinct : t.Distinct

/-- The table holds the nodes of the tree, each with the hash of its path. -/
structure TableFull (m : MlkHash) (t : ShrForest (List UInt8)) : Prop where
  ok : m.TableOk
  hashed : ∀ e ∈ entries 0 [] t, (m.shrblk e.idx).hash = pathHash m.hashSeed e.path
  has_iff : ∀ x hx, m.Has x hx ↔ ∃ e ∈ entries 0 [] t, x = e.idx ∧ hx = pathHash m.hashSeed e.path

/-- What filling in some nodes changes. -/
structure Filled (hashSeed : BitVec 64) (es : List Entry) (m m' : MlkHash) : Prop where
  ok : m'.TableOk
  seed : m'.hashSeed = m.hashSeed
  hashed : ∀ e ∈ es, (m'.shrblk e.idx).hash = pathHash hashSeed e.path
  other : ∀ x, (∀ e ∈ es, x ≠ e.idx) → (m'.shrblk x).hash = (m.shrblk x).hash
  has_iff : ∀ x hx, m'.Has x hx ↔ m.Has x hx ∨ ∃ e ∈ es, x = e.idx ∧ hx = pathHash hashSeed e.path

/-- What it never changes. -/
structure Steady (m m' : MlkHash) : Prop where
  size : m'.shrhashSize = m.shrhashSize
  parent : ∀ x, (m'.shrblk x).parent = (m.shrblk x).parent
  value : ∀ x, (m'.shrblk x).value = (m.shrblk x).value

theorem Steady.trans {m₁ m₂ m₃ : MlkHash} (h : Steady m₁ m₂) (h' : Steady m₂ m₃) : Steady m₁ m₃ :=
  ⟨h'.size.trans h.size, fun x => (h'.parent x).trans (h.parent x), fun x => (h'.value x).trans (h.value x)⟩

theorem Filled.append {es es' : List Entry} {m₁ : MlkHash} (h : Filled hashSeed es m m₁) (h' : Filled hashSeed es' m₁ m')
    (hapart : ∀ e ∈ es, ∀ e' ∈ es', e.idx ≠ e'.idx) : Filled hashSeed (es ++ es') m m' where
  ok := h'.ok
  seed := h'.seed.trans h.seed
  hashed := by
    intro e he
    rcases List.mem_append.mp he with he | he
    · rw [h'.other _ (hapart e he), h.hashed e he]
    · exact h'.hashed e he
  other := by
    intro x hx
    rw [h'.other x fun e he => hx e (by simp [he]), h.other x fun e he => hx e (by simp [he])]
  has_iff := by
    intro x hx
    rw [h'.has_iff, h.has_iff, or_assoc]
    simp only [List.mem_append, or_and_right, exists_or]

/-- One node is hashed and added. -/
theorem filled_node {added : Bool} {d : Nat} {path : List (List UInt8)} (parent : Nat) (h : m.TableOk) (hd : d ≠ 0)
    (hnew : ∀ hx, ¬ m.Has d hx) {hash : BitVec 32} (hhash : hash = pathHash hashSeed path)
    (hrun : mlkShrhashAdd (m.setHash d hash) d = (m', added)) : Steady m m' ∧ (added = true → Filled hashSeed [⟨parent, path, d⟩] m m') := by
  have hok' : (m.setHash d hash).TableOk := ⟨h.pos, h.lt, h.marked_iff, h.inj⟩
  obtain ⟨hkept, hok, hhas⟩ := MlkHash.mlkShrhashAdd_spec hok' hd hnew hrun
  have hblk : ∀ x, m'.shrblk x = if x = d then { m.shrblk d with hash } else m.shrblk x := fun x => by rw [hkept.shrblk]; rfl
  refine ⟨⟨hkept.size, fun x => ?_, fun x => ?_⟩, fun hadded => ⟨hok, hkept.hashSeed, fun e he => ?_, fun x hx => ?_, fun x hx => ?_⟩⟩
  · rw [hblk]
    split <;> simp_all
  · rw [hblk]
    split <;> simp_all
  · obtain rfl := List.mem_singleton.mp he
    rw [hblk, if_pos rfl, hhash]
  · rw [hblk, if_neg (hx _ (List.mem_singleton_self _))]
  · have hsame : ((m.setHash d hash).shrblk d).hash = hash := by simp [MlkHash.setHash]
    rw [hhas, hadded, hsame, hhash]
    simp only [true_and, List.mem_singleton, exists_eq_left]
    rfl

theorem Filled.not_has {es : List Entry} (h : Filled hashSeed es m m') {x : Nat} (hx : ∀ hash, ¬ m.Has x hash)
    (hother : ∀ e ∈ es, e.idx ≠ x) (hash : BitVec 32) : ¬ m'.Has x hash := by
  intro hhas
  rcases (h.has_iff x hash).mp hhas with hhas | ⟨e, he, rfl, -⟩
  exacts [hx hash hhas, hother e he rfl]

/-- The walk down the tree: unless it has to give up, every node is in the table with the hash of its path. -/
theorem mlkRehashTree_spec (pl : HashPlaces) (f : ShrForest (List UInt8)) (parent : Nat) {len : BitVec 32}
    {r : Option Nat} (hst : Hashed hashSeed pre state) (hlen : len = BitVec.ofNat 32 (packed pre).length) (hok : m.TableOk)
    (hnew : ∀ e ∈ entries parent pre f, e.idx ≠ 0 ∧ ∀ hx, ¬ m.Has e.idx hx) (hnodup : ((entries parent pre f).map Entry.idx).Nodup)
    (hrun : mlkRehashTree pl f state len m = (m', r)) :
    Steady m m' ∧ ∀ count, r = some count → Filled hashSeed (entries parent pre f) m m' ∧ count = (entries parent pre f).length := by
  induction f generalizing pre state parent len m m' r with
  | empty =>
    obtain ⟨rfl, rfl⟩ := Prod.mk.inj hrun
    refine ⟨⟨rfl, fun _ => rfl, fun _ => rfl⟩, fun count hcount => ?_⟩
    obtain rfl := Option.some.inj hcount
    exact ⟨⟨hok, rfl, by simp [entries], fun _ _ => rfl, by simp [entries]⟩, rfl⟩
  | node d children rsib ihc ihr =>
    simp only [entries, List.map_cons, List.map_append, List.nodup_cons, List.mem_append, not_or, List.mem_map, not_exists, not_and]
      at hnodup
    obtain ⟨⟨hdc, hdr⟩, hnodup⟩ := hnodup
    obtain ⟨hnc, hnr, hcr⟩ := List.nodup_append.mp hnodup
    have hnext := hst.snoc_pieces pl.unalignedSafe (pl.shrsub d.idx + 8) (pl.shrsub d.idx + 9) d.value
    have hlen' : len + BitVec.ofNat 32 (1 + d.value.length) = BitVec.ofNat 32 (packed (pre ++ [d.value])).length := by
      rw [hlen, packed_append, packed_singleton, List.length_append, List.length_cons, ← BitVec.ofNat_add, Nat.add_comm 1]
    obtain ⟨hd0, hdnew⟩ := hnew ⟨parent, pre ++ [d.value], d.idx⟩ (by simp [entries])
    have hchildren : ∀ e ∈ entries d.idx (pre ++ [d.value]) children, e.idx ≠ 0 ∧ ∀ hx, ¬ m.Has e.idx hx :=
      fun e he => hnew e (by simp [entries, he])
    have hrsib : ∀ e ∈ entries parent pre rsib, e.idx ≠ 0 ∧ ∀ hx, ¬ m.Has e.idx hx := fun e he => hnew e (by simp [entries, he])
    rw [mlkRehashTree] at hrun
    simp only [hlen', hnext.val] at hrun
    cases hadd : mlkShrhashAdd (m.setHash d.idx (pathHash hashSeed (pre ++ [d.value]))) d.idx with
    | mk m₁ added =>
      obtain ⟨hsteady₁, hfilled₁⟩ := filled_node parent hok hd0 hdnew rfl hadd
      rw [hadd] at hrun
      cases added with
      | false =>
        obtain ⟨rfl, rfl⟩ := Prod.mk.inj hrun
        exact ⟨hsteady₁, nofun⟩
      | true =>
        have h₁ := hfilled₁ rfl
        have hone : ∀ {x : Nat}, (d.idx ≠ x) → ∀ e ∈ [(⟨parent, pre ++ [d.value], d.idx⟩ : Entry)], e.idx ≠ x := by
          intro x hx e he
          rw [List.mem_singleton.mp he]
          exact hx
        cases hrunc : mlkRehashTree pl children _ (BitVec.ofNat 32 (packed (pre ++ [d.value])).length) m₁ with
        | mk m₂ rc =>
          obtain ⟨hsteady₂, hfilled₂⟩ := ihc d.idx hnext rfl h₁.ok
            (fun e he => ⟨(hchildren e he).1, h₁.not_has (hchildren e he).2 (hone fun heq => hdc e he heq.symm)⟩) hnc hrunc
          simp only [hrunc] at hrun
          cases rc with
          | none =>
            obtain ⟨rfl, rfl⟩ := Prod.mk.inj hrun
            exact ⟨hsteady₁.trans hsteady₂, nofun⟩
          | some childCount =>
            obtain ⟨h₂, hcount₂⟩ := hfilled₂ childCount rfl
            have h₁₂ := h₁.append h₂ fun e he e' he' => hone (fun heq => hdc e' he' heq.symm) e he
            cases hrunr : mlkRehashTree pl rsib state len m₂ with
            | mk m₃ rr =>
              have hapart : ∀ e' ∈ entries parent pre rsib,
                  ∀ e ∈ ⟨parent, pre ++ [d.value], d.idx⟩ :: entries d.idx (pre ++ [d.value]) children, e.idx ≠ e'.idx := by
                intro e' he' e he
                rcases List.mem_cons.mp he with rfl | he
                · exact fun heq => hdr e' he' heq.symm
                · exact hcr _ (List.mem_map_of_mem he) _ (List.mem_map_of_mem he')
              obtain ⟨hsteady₃, hfilled₃⟩ := ihr parent hst hlen h₂.ok
                (fun e he => ⟨(hrsib e he).1, h₁₂.not_has (hrsib e he).2 (hapart e he)⟩) hnr hrunr
              simp only [hrunr] at hrun
              cases rr with
              | none =>
                obtain ⟨rfl, rfl⟩ := Prod.mk.inj hrun
                exact ⟨(hsteady₁.trans hsteady₂).trans hsteady₃, nofun⟩
              | some count =>
                obtain ⟨rfl, rfl⟩ := Prod.mk.inj hrun
                obtain ⟨h₃, hcount₃⟩ := hfilled₃ count rfl
                refine ⟨(hsteady₁.trans hsteady₂).trans hsteady₃, fun n hn => ?_⟩
                obtain rfl := Option.some.inj hn
                refine ⟨h₁₂.append h₃ fun e he e' he' => hapart e' he' e he, ?_⟩
                rw [entries, List.length_cons, List.length_append, hcount₃]
                omega

/-- A node that `mlk_shrblk_create` adds to the tree is in the table. -/
theorem TableFull.create {t' : ShrForest (List UInt8)} (h : TableFull m t) (he : e.idx ≠ 0)
    (hnew : ∀ e' ∈ entries 0 [] t, e'.idx ≠ e.idx) (ht : ∀ x, x ∈ entries 0 [] t' ↔ x ∈ entries 0 [] t ∨ x = e)
    (hrun : mlkShrhashAdd (m.setHash e.idx (pathHash m.hashSeed e.path)) e.idx = (m', true)) : TableFull m' t' := by
  have hnot : ∀ hx, ¬ m.Has e.idx hx := by
    intro hx hhas
    obtain ⟨e', he', heq, -⟩ := (h.has_iff _ _).mp hhas
    exact hnew e' he' heq.symm
  obtain ⟨-, hfilled⟩ := filled_node e.parent h.ok he hnot rfl hrun
  obtain ⟨hok, hseed, hhash, hother, hhas⟩ := hfilled rfl
  refine ⟨hok, fun x hx => ?_, fun x hx => ?_⟩
  · rcases (ht x).mp hx with hx | rfl
    · rw [hother _ fun y hy => by rw [List.mem_singleton.mp hy]; exact hnew x hx, h.hashed x hx, hseed]
    · rw [hhash _ (List.mem_singleton_self _), hseed]
  · rw [hhas, h.has_iff, hseed]
    simp only [ht, or_and_right, exists_or, List.mem_singleton, exists_eq_left]

/-- A node that `mlk_shrblk_delete_if_empty` takes from the tree is no longer in the table. -/
theorem TableFull.delete {t' : ShrForest (List UInt8)} (h : TableFull m t)
    (he : e ∈ entries 0 [] t) (ht : ∀ x, x ∈ entries 0 [] t' ↔ x ∈ entries 0 [] t ∧ x.idx ≠ e.idx) :
    TableFull (mlkShrhashDelete m e.idx) t' := by
  have hhas : m.Has e.idx (m.shrblk e.idx).hash := (h.has_iff _ _).mpr ⟨e, he, rfl, h.hashed e he⟩
  obtain ⟨hkept, hok, hiff⟩ := MlkHash.mlkShrhashDelete_spec h.ok hhas
  refine ⟨hok, fun x hx => by rw [hkept.shrblk, hkept.hashSeed]; exact h.hashed x ((ht x).mp hx).1, fun x hx => ?_⟩
  rw [hiff, h.has_iff, hkept.hashSeed]
  constructor
  · rintro ⟨⟨y, hy, rfl, rfl⟩, hxe⟩
    exact ⟨y, (ht y).mpr ⟨hy, hxe⟩, rfl, rfl⟩
  · rintro ⟨y, hy, rfl, rfl⟩
    exact ⟨⟨y, ((ht y).mp hy).1, rfl, rfl⟩, ((ht y).mp hy).2⟩

theorem TreeOk.steady (h : TreeOk m t) (hs : Steady m m') : TreeOk m' t where
  pos := by rw [hs.size]; exact h.pos
  linked := fun e he => by rw [hs.parent, hs.value]; exact h.linked e he
  short := h.short
  nodup := h.nodup
  distinct := h.distinct

/-- A table that is cleared holds nothing. -/
theorem tableOk_of_empty (hpos : 0 < m.shrhashSize) (hempty : ∀ i < m.shrhashSize, m.shrhash i = {}) : m.TableOk ∧ ∀ x hx, ¬ m.Has x hx := by
  have hmark : ∀ bi < m.shrhashSize, ∀ off, m.marked bi off = false := by
    intro bi hb off
    rw [MlkHash.marked, hempty bi hb]
    simp
  refine ⟨⟨hpos, fun bi hb off hoff => ?_, fun bi hb i hi => ?_, fun i hi j _ h0 => ?_⟩, ?_⟩
  · rw [hmark bi hb] at hoff
    simp at hoff
  · rw [hmark bi hb, hempty i hi]
    simp
  · rw [hempty i hi] at h0
    exact absurd rfl h0
  · rintro x hx ⟨h0, i, hi, hx, -⟩
    rw [hempty i hi] at hx
    exact h0 hx.symm

/-- When `mlk_rehash` ends, the tree is as it was and the table holds it. -/
theorem mlkRehash_spec (pl : HashPlaces) {k : Nat} (h : TreeOk m t) (hrun : mlkRehash pl t k m = some m') : TreeOk m' t ∧ TableFull m' t := by
  induction k generalizing m with
  | zero => simp [mlkRehash] at hrun
  | succ k ih =>
    rw [mlkRehash] at hrun
    have hsteady₀ : Steady m m.reseed := ⟨rfl, fun _ => rfl, fun _ => rfl⟩
    obtain ⟨hok₀, hnone₀⟩ := tableOk_of_empty (m := m.reseed) h.pos fun i hi => if_pos hi
    have hfilled : ∀ {m₁ r},
        (if t.isEmpty then (m.reseed, some 0) else mlkRehashTree pl t (mlkSubhashInit m.reseed.hashSeed) 0 m.reseed) = (m₁, r) →
        Steady m.reseed m₁ ∧ ∀ count, r = some count → Filled m.reseed.hashSeed (entries 0 [] t) m.reseed m₁ := by
      intro m₁ r hr
      have hr' : mlkRehashTree pl t (mlkSubhashInit m.reseed.hashSeed) 0 m.reseed = (m₁, r) := by
        cases t with
        | empty => exact hr
        | node d children rsib => exact hr
      obtain ⟨hsteady, hsome⟩ := mlkRehashTree_spec pl t 0 (hashed_init m.reseed.hashSeed) rfl hok₀
        (fun e he => ⟨(h.linked e he).1, fun hx => hnone₀ _ hx⟩) h.nodup hr'
      exact ⟨hsteady, fun count hc => (hsome count hc).1⟩
    cases hr : (if t.isEmpty then (m.reseed, some 0) else mlkRehashTree pl t (mlkSubhashInit m.reseed.hashSeed) 0 m.reseed) with
    | mk m₁ r =>
      obtain ⟨hsteady, hsome⟩ := hfilled hr
      simp only [hr] at hrun
      cases r with
      | none => exact ih (h.steady (hsteady₀.trans hsteady)) hrun
      | some count =>
        obtain rfl := Option.some.inj hrun
        obtain ⟨hok, hseed, hhash, -, hhas⟩ := hsome count rfl
        have htree := h.steady (hsteady₀.trans hsteady)
        refine ⟨⟨htree.pos, htree.linked, htree.short, htree.nodup, htree.distinct⟩,
          ⟨hok.pos, hok.lt, hok.marked_iff, hok.inj⟩, fun e he => ?_, fun x hx => (hhas x hx).trans ?_⟩
        · rw [hhash e he, ← hseed]
        · simp only [hnone₀, false_or, ← hseed]

/-! ## Paths in a tree -/

/-- The parent of a node is the node of the path before its subscript. -/
theorem entry_parent {parent : Nat} (he : e ∈ entries parent pre t) : ∃ init last, e.path = init ++ [last] ∧
      ((init = pre ∧ e.parent = parent) ∨ ∃ p ∈ entries parent pre t, p.path = init ∧ p.idx = e.parent) := by
  induction t generalizing parent pre with
  | empty => simp [entries] at he
  | node d children rsib ihc ihr =>
    simp only [entries, List.mem_cons, List.mem_append] at he ⊢
    rcases he with rfl | he | he
    · exact ⟨pre, d.value, rfl, Or.inl ⟨rfl, rfl⟩⟩
    · obtain ⟨init, last, hpath, ⟨rfl, hp⟩ | ⟨p, hp, hpe⟩⟩ := ihc he
      · exact ⟨_, last, hpath, Or.inr ⟨_, Or.inl rfl, rfl, hp.symm⟩⟩
      · exact ⟨init, last, hpath, Or.inr ⟨p, Or.inr (Or.inl hp), hpe⟩⟩
    · obtain ⟨init, last, hpath, h | ⟨p, hp, hpe⟩⟩ := ihr he
      · exact ⟨init, last, hpath, Or.inl h⟩
      · exact ⟨init, last, hpath, Or.inr ⟨p, Or.inr (Or.inr hp), hpe⟩⟩

theorem mem_tops_of_nodeAt {v : List UInt8} {d : MlkShrblk (List UInt8)} (h : t.nodeAt (v :: subs) = some d) : v ∈ t.tops := by
  induction t with
  | empty => simp [ShrForest.nodeAt] at h
  | node c children rsib _ ihr =>
    rw [ShrForest.nodeAt] at h
    by_cases hv : c.value = v
    · simp [ShrForest.tops, hv]
    · rw [if_neg hv] at h
      simp [ShrForest.tops, ihr h]

/-- The node at the path of an entry is that of the entry. -/
theorem nodeAt_of_entry (ht : t.Distinct) {parent : Nat} (he : e ∈ entries parent pre t) :
    ∃ v rel d, e.path = pre ++ v :: rel ∧ t.nodeAt (v :: rel) = some d ∧ d.idx = e.idx := by
  induction t generalizing parent pre with
  | empty => simp [entries] at he
  | node d children rsib ihc ihr =>
    simp only [entries, List.mem_cons, List.mem_append] at he
    obtain ⟨hd, hc, hr⟩ := ht
    rcases he with rfl | he | he
    · exact ⟨d.value, [], d, rfl, by simp [ShrForest.nodeAt], rfl⟩
    · obtain ⟨v, rel, c, hpath, hnode, hidx⟩ := ihc hc he
      refine ⟨d.value, v :: rel, c, by rw [hpath, List.append_assoc, List.singleton_append], ?_, hidx⟩
      simpa [ShrForest.nodeAt] using hnode
    · obtain ⟨v, rel, c, hpath, hnode, hidx⟩ := ihr hr he
      have hv : d.value ≠ v := by
        rintro rfl
        exact hd (mem_tops_of_nodeAt hnode)
      exact ⟨v, rel, c, hpath, by rw [ShrForest.nodeAt, if_neg hv, hnode], hidx⟩

/-- The node at a path has an entry there. -/
theorem entry_of_nodeAt (parent : Nat) (pre : List (List UInt8)) {rel : List (List UInt8)}
    {d : MlkShrblk (List UInt8)} (h : t.nodeAt rel = some d) : ∃ e ∈ entries parent pre t, e.path = pre ++ rel ∧ e.idx = d.idx := by
  induction t generalizing parent pre rel with
  | empty => simp [ShrForest.nodeAt] at h
  | node c children rsib ihc ihr =>
    cases rel with
    | nil => simp [ShrForest.nodeAt] at h
    | cons v rel =>
      rw [ShrForest.nodeAt] at h
      split_ifs at h with hv hrel
      · obtain rfl := Option.some.inj h
        exact ⟨⟨parent, pre ++ [c.value], c.idx⟩, by simp [entries], by simp [hv, hrel], rfl⟩
      · obtain ⟨e, he, hpath, hidx⟩ := ihc c.idx (pre ++ [c.value]) h
        exact ⟨e, by simp [entries, he], by rw [hpath, hv, List.append_assoc, List.singleton_append], hidx⟩
      · obtain ⟨e, he, hpath, hidx⟩ := ihr parent pre h
        exact ⟨e, by simp [entries, he], hpath, hidx⟩

/-- The block of the node of a path, 0 for the empty path. -/
def ParentOf (t : ShrForest (List UInt8)) (pre : List (List UInt8)) (parent : Nat) : Prop :=
  (pre = [] ∧ parent = 0) ∨ ∃ p ∈ entries 0 [] t, p.path = pre ∧ p.idx = parent

section Tree

variable {m : MlkHash} {t : ShrForest (List UInt8)}

variable {e : Entry} {parent : Nat}

theorem TreeOk.nodeAt_entry (h : TreeOk m t) (he : e ∈ entries 0 [] t) : (t.nodeAt e.path).map (·.idx) = some e.idx := by
  obtain ⟨v, rel, d, hpath, hnode, hidx⟩ := nodeAt_of_entry h.distinct he
  rw [hpath, List.nil_append, hnode, Option.map_some, hidx]

/-- Two nodes with one path have one block, and the other way round. -/
theorem TreeOk.path_inj (h : TreeOk m t) {e' : Entry} (he : e ∈ entries 0 [] t) (he' : e' ∈ entries 0 [] t) :
    e.path = e'.path ↔ e.idx = e'.idx := by
  refine ⟨fun hp => Option.some.inj ?_, fun hi => ?_⟩
  · rw [← h.nodeAt_entry he, hp, h.nodeAt_entry he']
  · rw [List.inj_on_of_nodup_map h.nodup he he' hi]

/-- A node is a child of the node its path goes through. -/
theorem TreeOk.parent_iff (h : TreeOk m t) (he : e ∈ entries 0 [] t) (hp : ParentOf t pre parent)
    {v : List UInt8} : (e.parent = parent ∧ e.path.getLast? = some v) ↔ e.path = pre ++ [v] := by
  have hnz : ∀ {p : Entry}, p ∈ entries 0 [] t → p.idx ≠ 0 := fun hp => (h.linked _ hp).1
  obtain ⟨init, last, hpath, hinit⟩ := entry_parent he
  have hsame : e.parent = parent ↔ init = pre := by
    rcases hinit with ⟨rfl, h0⟩ | ⟨p, hpm, rfl, hpi⟩
    · rcases hp with ⟨rfl, rfl⟩ | ⟨q, hq, rfl, rfl⟩
      · simp [h0]
      · obtain ⟨_, _, hqpath, -⟩ := entry_parent hq
        rw [h0, hqpath]
        simp [Ne.symm (hnz hq)]
    · rcases hp with ⟨rfl, rfl⟩ | ⟨q, hq, rfl, rfl⟩
      · obtain ⟨_, _, hppath, -⟩ := entry_parent hpm
        rw [← hpi, hppath]
        simp [hnz hpm]
      · rw [← hpi, h.path_inj hpm hq]
  rw [hsame, hpath]
  simp

/-- A lookup by the hash of a path finds the node of the path. -/
theorem mlkShrhashFind_eq (h : TreeOk m t) (hfull : TableFull m t) (hp : ParentOf t pre parent) (v : List UInt8) :
    mlkShrhashFind m (pathHash m.hashSeed (pre ++ [v])) v parent = (t.nodeAt (pre ++ [v])).map (·.idx) := by
  have hfound : ∀ {d}, mlkShrhashFind m (pathHash m.hashSeed (pre ++ [v])) v parent = some d →
      (t.nodeAt (pre ++ [v])).map (·.idx) = some d := by
    intro d hd
    obtain ⟨hhas, hparent, hvalue⟩ := MlkHash.mlkShrhashFind_some hfull.ok hd
    obtain ⟨e, he, rfl, -⟩ := (hfull.has_iff _ _).mp hhas
    obtain ⟨-, hep, hlast⟩ := h.linked e he
    have hpath := (h.parent_iff he hp (v := v)).mp ⟨hep ▸ hparent, by rw [hlast, hvalue]⟩
    rw [← hpath, h.nodeAt_entry he]
  cases hnode : t.nodeAt (pre ++ [v]) with
  | none =>
    cases hfind : mlkShrhashFind m (pathHash m.hashSeed (pre ++ [v])) v parent with
    | none => rfl
    | some d => simpa [hnode] using hfound hfind
  | some d =>
    obtain ⟨e, he, hpath, -⟩ := entry_of_nodeAt 0 [] hnode
    rw [List.nil_append] at hpath
    obtain ⟨hep, hlast⟩ := (h.parent_iff he hp).mpr hpath
    obtain ⟨-, hlink, hvalue⟩ := h.linked e he
    have hhas : m.Has e.idx (pathHash m.hashSeed (pre ++ [v])) := (hfull.has_iff _ _).mpr ⟨e, he, rfl, by rw [hpath]⟩
    obtain ⟨d', hd'⟩ := Option.isSome_iff_exists.mp (MlkHash.mlkShrhashFind_isSome hfull.ok hhas (hlink.trans hep)
      (Option.some.inj (hvalue.symm.trans hlast)))
    rw [hd', ← hfound hd', hnode]

/-- The nodes of the tree on a path, up to the first that is missing. -/
def spine (t : ShrForest (List UInt8)) (pre : List (List UInt8)) : List (List UInt8) → List Nat
  | [] => []
  | v :: subs =>
    match t.nodeAt (pre ++ [v]) with
    | none => []
    | some d => d.idx :: spine t (pre ++ [v]) subs

/-- What a private block holds for an nref: its hashes are those `MLK_PVTBLK_SUBHASH_GEN` computes for its seed. -/
structure PvtOk (pl : HashPlaces) (p : PvtNref) (subs : List (List UInt8)) : Prop where
  value : p.value = packed subs
  cnt : p.subscriptCnt = subs.length
  short : Short subs
  subhash : p.subhash = mlkPvtblkSubhashGen pl p.hashSeed p.value p.subscriptCnt

theorem shrblkFindLoop_spec (h : TreeOk m t) (hfull : TableFull m t) {p : PvtNref} (hvalue : p.value = packed (pre ++ subs))
    (hcnt : p.subscriptCnt = (pre ++ subs).length) (hshort : Short subs)
    (hhash : ∀ i < (pre ++ subs).length, p.subhash.getD i 0 = pathHash m.hashSeed ((pre ++ subs).take (i + 1))) (hp : ParentOf t pre parent) :
    shrblkFindLoop m p subs.length (packed pre).length parent = spine t pre subs := by
  induction subs generalizing pre parent with
  | nil => rfl
  | cons v subs ih =>
    have happend : pre ++ v :: subs = pre ++ [v] ++ subs := by simp
    have hlen : (p.value.getD (packed pre).length 0).toNat = v.length := by rw [hvalue]; exact getD_packed (hshort v (by simp)) pre subs
    have htake : (p.value.drop ((packed pre).length + 1)).take v.length = v := by
      rw [← List.drop_drop, hvalue, drop_packed, List.cons_append, List.drop_one, List.tail_cons, List.take_left]
    have hsub : p.subhash.getD (p.subscriptCnt - (subs.length + 1)) 0 = pathHash m.hashSeed (pre ++ [v]) := by
      have hidx : p.subscriptCnt - (subs.length + 1) = pre.length := by rw [hcnt]; simp
      rw [hidx, hhash _ (by simp), happend, List.take_left' (by simp)]
    have hend : (packed pre).length + 1 + v.length = (packed (pre ++ [v])).length := by simp [packed_append, packed_singleton]; omega
    rw [List.length_cons, shrblkFindLoop, spine]
    simp only [hlen, htake, hsub, hend, mlkShrhashFind_eq h hfull hp]
    cases hnode : t.nodeAt (pre ++ [v]) with
    | none => rfl
    | some d =>
      obtain ⟨e, he, hpath, hidx⟩ := entry_of_nodeAt 0 [] hnode
      simp only [Option.map_some]
      rw [ih (happend ▸ hvalue) (happend ▸ hcnt) (fun w hw => hshort w (by simp [hw])) (happend ▸ hhash)
        (Or.inr ⟨e, he, by simpa using hpath, hidx⟩)]

/-- A private block finds the nodes of the tree on its path, whatever the seed is. -/
theorem mlkShrblkPath_eq (pl : HashPlaces) (h : TreeOk m t) (hfull : TableFull m t) {p : PvtNref} (hp : PvtOk pl p subs) :
    mlkShrblkPath pl m p = spine t [] subs := by
  have hsync : (mlkPvtblkSubhashSync pl m p).value = p.value ∧ (mlkPvtblkSubhashSync pl m p).subscriptCnt = p.subscriptCnt ∧
      (mlkPvtblkSubhashSync pl m p).subhash = mlkPvtblkSubhashGen pl m.hashSeed p.value p.subscriptCnt := by
    unfold mlkPvtblkSubhashSync
    split_ifs with hseed
    · exact ⟨rfl, rfl, rfl⟩
    · exact ⟨rfl, rfl, by rw [hp.subhash, not_ne_iff.mp hseed]⟩
  obtain ⟨hvalue, hcnt, hsub⟩ := hsync
  rw [hp.value, hp.cnt, mlkPvtblkSubhashGen_eq pl m.hashSeed hp.short] at hsub
  have hhash : ∀ i < ([] ++ subs).length,
      (mlkPvtblkSubhashSync pl m p).subhash.getD i 0 = pathHash m.hashSeed (([] ++ subs).take (i + 1)) := by
    intro i hi
    rw [hsub]
    simp only [List.nil_append] at hi ⊢
    simp [List.getD_eq_getElem?_getD, hi]
  have hvalue' : (mlkPvtblkSubhashSync pl m p).value = packed ([] ++ subs) := hvalue.trans hp.value
  have hcnt' : (mlkPvtblkSubhashSync pl m p).subscriptCnt = ([] ++ subs).length := hcnt.trans hp.cnt
  have hrun := shrblkFindLoop_spec h hfull hvalue' hcnt' hp.short hhash (Or.inl ⟨rfl, rfl⟩)
  rw [mlkShrblkPath, hp.cnt]
  exact hrun

/-- The blocks lead up from a node along its path. -/
theorem climbs_of_entry (h : TreeOk m t) (he : e ∈ entries 0 [] t) : Climbs m e.idx e.path := by
  induction hn : e.path.length generalizing e with
  | zero =>
    obtain ⟨init, last, hpath, -⟩ := entry_parent he
    simp [hpath] at hn
  | succ n ih =>
    obtain ⟨init, last, hpath, hinit⟩ := entry_parent he
    obtain ⟨-, hparent, hlast⟩ := h.linked e he
    obtain rfl : last = (m.shrblk e.idx).value := by simpa [hpath] using hlast
    rcases hinit with ⟨rfl, h0⟩ | ⟨p, hp, rfl, hpe⟩
    · rw [hpath]
      exact .top (hparent.trans h0)
    · rw [hpath]
      refine .child ?_ ?_
      · rw [hparent, ← hpe]
        exact (h.linked p hp).1
      · rw [hparent, ← hpe]
        exact ih hp (by simpa [hpath] using hn)

end Tree

end LockRehashAux

open LockRehashAux

namespace LockRehashAux

/-- One node, `^A`, and a table of four buckets. -/
def oneNode : ShrForest (List UInt8) := .node { idx := 1, value := [0x5e, 0x41] } .empty .empty

def fourBuckets : MlkHash where
  shrhash _ := {}
  shrhashSize := 4
  shrblk _ := { parent := 0, value := [0x5e, 0x41], hash := 0 }
  hashSeed := 0
  hashFailCnt := 0
  numBlkhash := 4
  maxBlkcnt := 2
  blkcnt := 1
  gcNeeded := false
  resizeNeeded := false
  rehashNeeded := false

theorem treeOk_oneNode : TreeOk fourBuckets oneNode where
  pos := by decide
  linked := by simp [entries, oneNode, fourBuckets]
  short := by simp [entries, oneNode, Short]
  nodup := by simp [entries, oneNode]
  distinct := by simp [oneNode, ShrForest.Distinct, ShrForest.tops]

/-- A single node has its bucket free. -/
theorem mlkRehash_single (pl : HashPlaces) (d : MlkShrblk (List UInt8)) {m : MlkHash} (hpos : 0 < m.shrhashSize) :
    ∃ m', mlkRehash pl (.node d .empty .empty) 1 m = some m' := by
  have hadd : ∀ hash, ∃ m₁, mlkShrhashAdd (m.reseed.setHash d.idx hash) d.idx = (m₁, true) := by
    intro hash
    exact ⟨_, if_pos (by simp [MlkHash.setHash, MlkHash.reseed, Nat.mod_lt _ hpos])⟩
  rw [mlkRehash]
  simp only [ShrForest.isEmpty, mlkRehashTree, Bool.false_eq_true, if_false]
  generalize mlkSubhashVal _ _ = hash
  obtain ⟨m₁, hm₁⟩ := hadd hash
  simp [hm₁]

end LockRehashAux

end Gtm
