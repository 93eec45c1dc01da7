import Gtm.Mlk.Shrhash

/-!
# What the hash table holds

The maps of the buckets tell exactly where the entries stand, whatever is added, moved or deleted.
-/

namespace Gtm

namespace MlkHash

/-- Offset `off` of bucket `bi` is marked. -/
def marked (m : MlkHash) (bi off : Nat) : Bool := (m.shrhash bi).usedmap.getLsbD off

/-- The bucket of the entry in bucket `i`. -/
def home (m : MlkHash) (i : Nat) : Nat := (m.shrhash i).hash.toNat % m.shrhashSize

/-- The maps are right: an offset is marked when the bucket there has an entry that belongs to the bucket of the map. -/
structure TableOk (m : MlkHash) : Prop where
  pos : 0 < m.shrhashSize
  lt : ∀ bi < m.shrhashSize, ∀ off, m.marked bi off = true → off < m.shrhashSize
  marked_iff : ∀ bi < m.shrhashSize, ∀ i < m.shrhashSize,
    m.marked bi (m.behind i bi) = true ↔ (m.shrhash i).shrblkIdx ≠ 0 ∧ m.home i = bi
  inj : ∀ i < m.shrhashSize, ∀ j < m.shrhashSize, (m.shrhash i).shrblkIdx ≠ 0 →
    (m.shrhash i).shrblkIdx = (m.shrhash j).shrblkIdx → i = j

/-- The table has an entry for the node, with the hash. -/
def Has (m : MlkHash) (idx : Nat) (hash : BitVec 32) : Prop :=
  idx ≠ 0 ∧ ∃ i < m.shrhashSize, (m.shrhash i).shrblkIdx = idx ∧ (m.shrhash i).hash = hash

/-! ## Distances -/

variable {m : MlkHash} {i j bi : Nat}

theorem behind_eq (hi : i < m.shrhashSize) (hb : bi < m.shrhashSize) :
    m.behind i bi = if bi ≤ i then i - bi else m.shrhashSize + i - bi := by
  unfold behind
  split
  · rw [show m.shrhashSize + i - bi = i - bi + m.shrhashSize by omega, Nat.add_mod_right, Nat.mod_eq_of_lt (by omega)]
  · exact Nat.mod_eq_of_lt (by omega)

theorem add_mod_eq {n a b : Nat} (ha : a < n) (hb : b < n) : (a + b) % n = if a + b < n then a + b else a + b - n := by
  split
  · exact Nat.mod_eq_of_lt (by assumption)
  · rw [Nat.mod_eq_sub_mod (by omega), Nat.mod_eq_of_lt (by omega)]

theorem behind_lt (hi : i < m.shrhashSize) (hb : bi < m.shrhashSize) : m.behind i bi < m.shrhashSize := by
  rw [behind_eq hi hb]
  split <;> omega

/-- The bucket so far behind. -/
theorem add_behind (hi : i < m.shrhashSize) (hb : bi < m.shrhashSize) : (bi + m.behind i bi) % m.shrhashSize = i := by
  rw [add_mod_eq hb (behind_lt hi hb), behind_eq hi hb]
  split <;> split <;> omega

theorem behind_add {off : Nat} (hoff : off < m.shrhashSize) (hb : bi < m.shrhashSize) : m.behind ((bi + off) % m.shrhashSize) bi = off := by
  rw [behind_eq (Nat.mod_lt _ (by omega)) hb, add_mod_eq hb hoff]
  split <;> split <;> omega

theorem behind_inj (hi : i < m.shrhashSize) (hj : j < m.shrhashSize) (hb : bi < m.shrhashSize) : m.behind i bi = m.behind j bi ↔ i = j :=
  ⟨fun h => by rw [← add_behind hi hb, h, add_behind hj hb], fun h => by rw [h]⟩

/-- An offset that is marked leads to an entry of the bucket. -/
theorem TableOk.entry (h : m.TableOk) (hb : bi < m.shrhashSize) {off : Nat} (hoff : m.marked bi off = true) :
    (m.shrhash ((bi + off) % m.shrhashSize)).shrblkIdx ≠ 0 ∧ m.home ((bi + off) % m.shrhashSize) = bi :=
  (h.marked_iff bi hb _ (Nat.mod_lt _ h.pos)).mp (by rw [behind_add (h.lt bi hb off hoff) hb]; exact hoff)

theorem home_lt (hpos : 0 < m.shrhashSize) (i : Nat) : m.home i < m.shrhashSize := Nat.mod_lt _ hpos

/-! ## Maps -/

theorem getLsbD_setNeighbor (map : BitVec 32) {offset : Nat} (h : offset < 32) (k : Nat) :
    (setNeighbor map offset).getLsbD k = (map.getLsbD k || decide (k = offset)) := by
  unfold setNeighbor
  rw [BitVec.getLsbD_or]
  congr 1
  grind

theorem getLsbD_clearNeighbor (map : BitVec 32) (offset k : Nat) :
    (clearNeighbor map offset).getLsbD k = (map.getLsbD k && !decide (k = offset)) := by
  unfold clearNeighbor
  by_cases hk : k < 32
  · grind
  · simp [BitVec.getLsbD_of_ge map k (by omega)]

/-! ## One entry more or less -/

/-- An entry is put into a free bucket and marked in the map of its own. -/
structure Put (m m' : MlkHash) (i bi idx : Nat) (hash : BitVec 32) : Prop where
  size : m'.shrhashSize = m.shrhashSize
  idx : ∀ j, (m'.shrhash j).shrblkIdx = if j = i then idx else (m.shrhash j).shrblkIdx
  hash : ∀ j, (m'.shrhash j).hash = if j = i then hash else (m.shrhash j).hash
  marked : ∀ b off, m'.marked b off = (m.marked b off || decide (b = bi ∧ off = m.behind i bi))

/-- The entry in a bucket is taken out of it and out of the map of its own. -/
structure Taken (m m' : MlkHash) (i bi : Nat) : Prop where
  size : m'.shrhashSize = m.shrhashSize
  idx : ∀ j, (m'.shrhash j).shrblkIdx = if j = i then 0 else (m.shrhash j).shrblkIdx
  hash : ∀ j, (m'.shrhash j).hash = if j = i then 0 else (m.shrhash j).hash
  marked : ∀ b off, m'.marked b off = (m.marked b off && !decide (b = bi ∧ off = m.behind i bi))

variable {m' : MlkHash} {idx : Nat} {hash : BitVec 32}

theorem behind_congr (h : m'.shrhashSize = m.shrhashSize) (i bi : Nat) : m'.behind i bi = m.behind i bi := by simp only [behind, h]

theorem Put.tableOk (hp : Put m m' i bi idx hash) (h : m.TableOk) (hi : i < m.shrhashSize) (hfree : (m.shrhash i).shrblkIdx = 0)
    (hidx : idx ≠ 0) (hb : hash.toNat % m.shrhashSize = bi) (hnew : ∀ j < m.shrhashSize, (m.shrhash j).shrblkIdx ≠ idx) :
    m'.TableOk ∧ ∀ x hx, m'.Has x hx ↔ m.Has x hx ∨ (x = idx ∧ hx = hash) := by
  have hbi : bi < m.shrhashSize := hb ▸ Nat.mod_lt _ h.pos
  have hhome : ∀ j, m'.home j = if j = i then bi else m.home j := by
    intro j
    rw [home, hp.size, hp.hash]
    split <;> [exact hb; rfl]
  refine ⟨⟨by rw [hp.size]; exact h.pos, ?_, ?_, ?_⟩, fun x hx => ?_⟩
  · rw [hp.size]
    intro b hlt off hoff
    rw [hp.marked, Bool.or_eq_true, decide_eq_true_eq] at hoff
    rcases hoff with hoff | ⟨-, rfl⟩
    exacts [h.lt b hlt off hoff, behind_lt hi hbi]
  · rw [hp.size]
    intro b hlt j hj
    rw [hp.marked, behind_congr hp.size, hp.idx, hhome, Bool.or_eq_true, decide_eq_true_eq, h.marked_iff b hlt j hj]
    by_cases hji : j = i
    · subst hji
      rw [if_pos rfl, if_pos rfl]
      constructor
      · rintro (⟨h0, -⟩ | ⟨rfl, -⟩)
        exacts [absurd hfree h0, ⟨hidx, rfl⟩]
      · rintro ⟨-, rfl⟩
        exact Or.inr ⟨rfl, rfl⟩
    · rw [if_neg hji, if_neg hji]
      refine or_iff_left ?_
      rintro ⟨rfl, hoff⟩
      exact hji ((behind_inj hj hi hlt).mp hoff)
  · rw [hp.size]
    intro j hj k hk h0 heq
    rw [hp.idx] at h0
    rw [hp.idx, hp.idx] at heq
    split_ifs at h0 heq with h1 h2 h2
    · rw [h1, h2]
    · exact absurd heq.symm (hnew k hk)
    · exact absurd heq (hnew j hj)
    · exact h.inj j hj k hk h0 heq
  · rw [Has, hp.size]
    constructor
    · rintro ⟨h0, j, hj, hjx, hjh⟩
      rw [hp.idx] at hjx
      rw [hp.hash] at hjh
      split_ifs at hjx hjh with h1
      · exact Or.inr ⟨hjx.symm, hjh.symm⟩
      · exact Or.inl ⟨h0, j, hj, hjx, hjh⟩
    · rintro (⟨h0, j, hj, hjx, hjh⟩ | ⟨rfl, rfl⟩)
      · have hji : j ≠ i := by
          rintro rfl
          exact h0 (hjx ▸ hfree)
        exact ⟨h0, j, hj, by rw [hp.idx, if_neg hji, hjx], by rw [hp.hash, if_neg hji, hjh]⟩
      · exact ⟨hidx, i, hi, by rw [hp.idx, if_pos rfl], by rw [hp.hash, if_pos rfl]⟩

theorem Taken.tableOk (ht : Taken m m' i bi) (h : m.TableOk) (hi : i < m.shrhashSize) (hused : (m.shrhash i).shrblkIdx ≠ 0)
    (hb : m.home i = bi) : m'.TableOk ∧ ∀ x hx, m'.Has x hx ↔ m.Has x hx ∧ x ≠ (m.shrhash i).shrblkIdx := by
  refine ⟨⟨by rw [ht.size]; exact h.pos, ?_, ?_, ?_⟩, fun x hx => ?_⟩
  · rw [ht.size]
    intro b hlt off hoff
    rw [ht.marked, Bool.and_eq_true] at hoff
    exact h.lt b hlt off hoff.1
  · rw [ht.size]
    intro b hlt j hj
    rw [ht.marked, behind_congr ht.size, ht.idx, Bool.and_eq_true, h.marked_iff b hlt j hj]
    by_cases hji : j = i
    · subst hji
      simp only [if_true, ne_eq, not_true_eq_false, false_and, iff_false, not_and]
      rintro ⟨-, rfl⟩
      simp [hb]
    · have hhome : m'.home j = m.home j := by rw [home, ht.size, ht.hash, if_neg hji, home]
      rw [if_neg hji, hhome]
      refine and_iff_left ?_
      simp only [Bool.not_eq_true', decide_eq_false_iff_not, not_and]
      rintro rfl hoff
      exact hji ((behind_inj hj hi hlt).mp hoff)
  · rw [ht.size]
    intro j hj k hk h0 heq
    rw [ht.idx] at h0
    rw [ht.idx, ht.idx] at heq
    split_ifs at h0 heq with h1 h2 h2
    · exact absurd rfl h0
    · exact absurd rfl h0
    · exact absurd heq h0
    · exact h.inj j hj k hk h0 heq
  · rw [Has, ht.size]
    constructor
    · rintro ⟨h0, j, hj, hjx, hjh⟩
      rw [ht.idx] at hjx
      rw [ht.hash] at hjh
      split_ifs at hjx hjh with h1
      · exact absurd hjx.symm h0
      · refine ⟨⟨h0, j, hj, hjx, hjh⟩, fun heq => h1 (h.inj j hj i hi (hjx ▸ h0) (hjx.trans heq))⟩
    · rintro ⟨⟨h0, j, hj, hjx, hjh⟩, hne⟩
      have hji : j ≠ i := by
        rintro rfl
        exact hne hjx.symm
      exact ⟨h0, j, hj, by rw [ht.idx, if_neg hji, hjx], by rw [ht.hash, if_neg hji, hjh]⟩

/-! ## Searching -/

/-- Only the table and the requests for other measures change. -/
structure Kept (m m' : MlkHash) : Prop where
  size : m'.shrhashSize = m.shrhashSize
  shrblk : m'.shrblk = m.shrblk
  hashSeed : m'.hashSeed = m.hashSeed

theorem Kept.refl (m : MlkHash) : Kept m m := ⟨rfl, rfl, rfl⟩

theorem Kept.trans {m₁ m₂ m₃ : MlkHash} (h : Kept m₁ m₂) (h' : Kept m₂ m₃) : Kept m₁ m₃ :=
  ⟨h'.size.trans h.size, h'.shrblk.trans h.shrblk, h'.hashSeed.trans h.hashSeed⟩

/-- The table holds the same entries, wherever they are. -/
structure SameEntries (m m' : MlkHash) : Prop where
  kept : Kept m m'
  ok : m'.TableOk
  has_iff : ∀ x hx, m'.Has x hx ↔ m.Has x hx

theorem SameEntries.refl (h : m.TableOk) : SameEntries m m := ⟨.refl m, h, fun _ _ => Iff.rfl⟩

theorem SameEntries.trans {m₁ m₂ m₃ : MlkHash} (h : SameEntries m₁ m₂) (h' : SameEntries m₂ m₃) : SameEntries m₁ m₃ :=
  ⟨h.kept.trans h'.kept, h'.ok, fun x hx => (h'.has_iff x hx).trans (h.has_iff x hx)⟩

theorem next_lt (hpos : 0 < m.shrhashSize) (i : Nat) : m.next i < m.shrhashSize := Nat.mod_lt _ hpos

theorem behind_next {fi : Nat} (hi : i < m.shrhashSize) (hf : fi < m.shrhashSize) (hne : i ≠ fi) :
    m.behind fi (m.next i) + 1 = m.behind fi i := by
  have hnext : m.next i = if i + 1 < m.shrhashSize then i + 1 else 0 := by
    unfold next
    split
    · exact Nat.mod_eq_of_lt (by assumption)
    · rw [show i + 1 = m.shrhashSize by omega, Nat.mod_self]
  rw [behind_eq hf (next_lt (by omega) i), behind_eq hf hi, hnext]
  split_ifs <;> omega

theorem probeFree_some {k fi r : Nat} (hf : fi < m.shrhashSize) (h : probeFree m bi k fi = some r) :
    r < m.shrhashSize ∧ (m.shrhash r).shrblkIdx = 0 := by
  induction k generalizing fi with
  | zero => simp [probeFree] at h
  | succ k ih =>
    rw [probeFree] at h
    split_ifs at h with h1 h2
    · obtain rfl := Option.some.inj h
      exact ⟨hf, h1⟩
    · exact ih (next_lt (by omega) fi) h

/-- The bucket found is marked in the map, and before the free bucket. -/
theorem earliestUsed_some (off : Nat) {fi k mi r si : Nat} (h : earliestUsed m fi k mi ((m.shrhash si).usedmap >>> off) = some r)
    (hmi : mi < m.shrhashSize) (hsi : si < m.shrhashSize) (hf : fi < m.shrhashSize) (hoff : m.behind mi si = off)
    (hle : off + m.behind fi mi = m.behind fi si) :
    r < m.shrhashSize ∧ r ≠ fi ∧ m.marked si (m.behind r si) = true ∧ m.behind r si < m.behind fi si := by
  induction k generalizing mi off with
  | zero => simp [earliestUsed] at h
  | succ k ih =>
    rw [earliestUsed] at h
    have hne0 : mi ≠ fi → m.behind fi mi ≠ 0 := by
      intro hne h0
      have := add_behind hf hmi
      rw [h0, Nat.add_zero, Nat.mod_eq_of_lt hmi] at this
      exact hne this
    split_ifs at h with h1 h2
    · have hnext := behind_next hmi hf h1.2
      have hback : m.behind (m.next mi) si = off + 1 := by
        have hlt := behind_lt hf hsi
        have hadd := add_behind hmi hsi
        rw [hoff] at hadd
        have hstep : m.next mi = (si + (off + 1)) % m.shrhashSize := by
          rw [next, ← hadd, Nat.mod_add_mod, Nat.add_assoc]
        rw [hstep, behind_add (by omega) hsi]
      refine ih (off + 1) ?_ (next_lt (by omega) mi) hback (by omega)
      rwa [← BitVec.shiftRight_add] at h
    · obtain rfl := Option.some.inj h
      have hbit : m.marked si off = true := by
        rw [not_and_or, Bool.not_eq_false, not_ne_iff] at h1
        exact h1.resolve_right h2
      exact ⟨hmi, h2, by rw [hoff]; exact hbit, by omega⟩

theorem findMove_some {fi k si s r : Nat} (h : findMove m fi k si = some (s, r)) (hsi : si < m.shrhashSize)
    (hf : fi < m.shrhashSize) (hnear : m.behind fi si < 32) :
    s < m.shrhashSize ∧ m.behind fi s < 32 ∧ r < m.shrhashSize ∧ r ≠ fi ∧ m.marked s (m.behind r s) = true ∧
      m.behind r s < m.behind fi s := by
  induction k generalizing si with
  | zero => simp [findMove] at h
  | succ k ih =>
    rw [findMove] at h
    split_ifs at h with h1 h2
    · have := behind_next hsi hf h1
      exact ih h (next_lt (by omega) si) (by omega)
    · cases hused : earliestUsed m fi mlkShrhashNeighbors si (m.shrhash si).usedmap with
      | some mi =>
        rw [hused] at h
        obtain ⟨rfl, rfl⟩ := Prod.mk.inj (Option.some.inj h)
        have hzero : m.behind si si = 0 := by rw [behind_eq hsi hsi]; simp
        exact ⟨hsi, hnear, earliestUsed_some 0 (by simpa using hused) hsi hsi hf hzero (by omega)⟩
      | none =>
        rw [hused] at h
        have := behind_next hsi hf h1
        exact ih h (next_lt (by omega) si) (by omega)

@[simp] theorem shrhash_modify (i j : Nat) (f : MlkShrhash → MlkShrhash) :
    (m.modify i f).shrhash j = if j = i then f (m.shrhash i) else m.shrhash j := by
  simp only [modify, Function.update_apply]

@[simp] theorem shrhashSize_modify (i : Nat) (f : MlkShrhash → MlkShrhash) : (m.modify i f).shrhashSize = m.shrhashSize := rfl

theorem taken_at (i bi : Nat) :
    Taken m ((m.modify i fun b => { b with shrblkIdx := 0, hash := 0 }).modify bi
      fun b => { b with usedmap := clearNeighbor b.usedmap (m.behind i bi) }) i bi := by
  refine ⟨rfl, fun j => ?_, fun j => ?_, fun b off => ?_⟩
  · simp only [shrhash_modify]
    split_ifs <;> simp_all
  · simp only [shrhash_modify]
    split_ifs <;> simp_all
  · simp only [marked, shrhash_modify]
    split_ifs <;> simp_all [getLsbD_clearNeighbor]

/-! ## Moving -/

/-- The entry that is moved is taken out and put in again. -/
theorem moveBucket_spec {si mi fi : Nat} (h : m.TableOk) (hs : si < m.shrhashSize) (hm : mi < m.shrhashSize) (hf : fi < m.shrhashSize)
    (hne : mi ≠ fi) (hfree : (m.shrhash fi).shrblkIdx = 0) (hmark : m.marked si (m.behind mi si) = true) (hnear : m.behind fi si < 32) :
    SameEntries m (m.moveBucket si mi fi) ∧ ((m.moveBucket si mi fi).shrhash mi).shrblkIdx = 0 := by
  obtain ⟨hused, hhome⟩ := (h.marked_iff si hs mi hm).mp hmark
  let m₁ := (m.modify mi fun b => { b with shrblkIdx := 0, hash := 0 }).modify si
    fun b => { b with usedmap := clearNeighbor b.usedmap (m.behind mi si) }
  have ht : Taken m m₁ mi si := taken_at mi si
  obtain ⟨hok₁, hhas₁⟩ := ht.tableOk h hm hused hhome
  have hp : Put m₁ (m.moveBucket si mi fi) fi si (m.shrhash mi).shrblkIdx (m.shrhash mi).hash := by
    refine ⟨rfl, fun j => ?_, fun j => ?_, fun b off => ?_⟩
    · simp only [m₁, moveBucket, shrhash_modify]
      split_ifs <;> simp_all
    · simp only [m₁, moveBucket, shrhash_modify]
      split_ifs <;> simp_all
    · simp only [m₁, moveBucket, marked, shrhash_modify]
      split_ifs <;> simp_all [getLsbD_setNeighbor, behind]
  have hempty₁ : (m₁.shrhash fi).shrblkIdx = 0 := by rw [ht.idx, if_neg (Ne.symm hne), hfree]
  have hnew : ∀ j < m.shrhashSize, (m₁.shrhash j).shrblkIdx ≠ (m.shrhash mi).shrblkIdx := by
    intro j hj heq
    rw [ht.idx] at heq
    split_ifs at heq with hji
    · exact hused heq.symm
    · exact hji (h.inj mi hm j hj hused heq.symm).symm
  obtain ⟨hok, hhas⟩ := hp.tableOk hok₁ hf hempty₁ hused hhome hnew
  refine ⟨⟨⟨rfl, rfl, rfl⟩, hok, fun x hx => ?_⟩, ?_⟩
  · rw [hhas, hhas₁]
    constructor
    · rintro (⟨hx, -⟩ | ⟨rfl, rfl⟩)
      exacts [hx, ⟨hused, mi, hm, rfl, rfl⟩]
    · intro hx
      by_cases hxm : x = (m.shrhash mi).shrblkIdx
      · obtain ⟨-, j, hj, hjx, hjh⟩ := hx
        obtain rfl := h.inj mi hm j hj hused (hxm ▸ hjx.symm)
        exact Or.inr ⟨hxm, hjh.symm⟩
      · exact Or.inl ⟨hx, hxm⟩
  · rw [hp.idx, if_neg hne, ht.idx, if_pos rfl]

/-- Where the search for a bucket with something to move starts. -/
theorem behind_start {fi : Nat} (hf : fi < m.shrhashSize) (hn : 32 ≤ m.shrhashSize) :
    m.behind fi ((m.shrhashSize + fi - 32 + 1) % m.shrhashSize) = 31 := by
  have hstart : (m.shrhashSize + fi - 32 + 1) % m.shrhashSize = if 31 ≤ fi then fi - 31 else m.shrhashSize + fi - 31 := by
    split
    · rw [show m.shrhashSize + fi - 32 + 1 = fi - 31 + m.shrhashSize by omega, Nat.add_mod_right, Nat.mod_eq_of_lt (by omega)]
    · rw [show m.shrhashSize + fi - 32 + 1 = m.shrhashSize + fi - 31 by omega, Nat.mod_eq_of_lt (by omega)]
  rw [behind_eq hf (Nat.mod_lt _ (by omega)), hstart]
  split_ifs <;> omega

/-- What one turn of the loop moves. -/
theorem findMove_start {fi s r : Nat} (hf : fi < m.shrhashSize) (hb : bi < m.shrhashSize) (hfar : mlkShrhashNeighbors ≤ m.behind fi bi)
    (h : findMove m fi mlkShrhashNeighbors ((m.shrhashSize + fi - mlkShrhashNeighbors + 1) % m.shrhashSize) = some (s, r)) :
    s < m.shrhashSize ∧ m.behind fi s < 32 ∧ r < m.shrhashSize ∧ r ≠ fi ∧ m.marked s (m.behind r s) = true ∧
      m.behind r s < m.behind fi s := by
  have hlt := behind_lt hf hb
  unfold mlkShrhashNeighbors at hfar h
  exact findMove_some h (Nat.mod_lt _ (by omega)) hf (by rw [behind_start hf (by omega)]; omega)

theorem sameEntries_giveUp (h : m.TableOk) : SameEntries m m.giveUp := by
  have hsame : m.giveUp.shrhash = m.shrhash ∧ m.giveUp.shrhashSize = m.shrhashSize ∧ Kept m m.giveUp := by
    unfold giveUp
    split_ifs <;> exact ⟨rfl, rfl, rfl, rfl, rfl⟩
  obtain ⟨htab, hsize, hkept⟩ := hsame
  have hmarked : m.giveUp.marked = m.marked := by unfold marked; rw [htab]
  have hhome : m.giveUp.home = m.home := by unfold home; rw [htab, hsize]
  have hbehind : m.giveUp.behind = m.behind := by unfold behind; rw [hsize]
  refine ⟨hkept, ⟨by rw [hsize]; exact h.pos, ?_, ?_, ?_⟩, fun x hx => by rw [Has, Has, htab, hsize]⟩
  · rw [hmarked, hsize]; exact h.lt
  · rw [hmarked, hhome, hbehind, htab, hsize]; exact h.marked_iff
  · rw [htab, hsize]; exact h.inj

/-- The loop keeps the entries; the bucket it ends with is free, and near. -/
theorem closerBucket_spec {k fi : Nat} {r : Option Nat} (hb : bi < m.shrhashSize) (h : m.TableOk) (hf : fi < m.shrhashSize)
    (hfree : (m.shrhash fi).shrblkIdx = 0) (hrun : closerBucket bi k m fi = (m', r)) :
    SameEntries m m' ∧ ∀ i, r = some i → i < m.shrhashSize ∧ (m'.shrhash i).shrblkIdx = 0 ∧ m.behind i bi < 32 := by
  induction k generalizing m fi with
  | zero =>
    obtain ⟨rfl, rfl⟩ := Prod.mk.inj hrun
    exact ⟨.refl h, nofun⟩
  | succ k ih =>
    rw [closerBucket] at hrun
    split_ifs at hrun with hfar
    · cases hmove : findMove m fi mlkShrhashNeighbors ((m.shrhashSize + fi - mlkShrhashNeighbors + 1) % m.shrhashSize) with
      | none =>
        rw [hmove] at hrun
        obtain ⟨rfl, rfl⟩ := Prod.mk.inj hrun
        exact ⟨sameEntries_giveUp h, nofun⟩
      | some sm =>
        obtain ⟨si, mi⟩ := sm
        rw [hmove] at hrun
        obtain ⟨hs, hnear, hm, hne, hmark, -⟩ := findMove_start hf hb hfar hmove
        obtain ⟨hsame, hfree'⟩ := moveBucket_spec h hs hm hf hne hfree hmark hnear
        obtain ⟨hsame', hr⟩ := ih (m := m.moveBucket si mi fi) hb hsame.ok hm hfree' hrun
        exact ⟨hsame.trans hsame', hr⟩
    · obtain ⟨rfl, rfl⟩ := Prod.mk.inj hrun
      refine ⟨.refl h, fun i hi => ?_⟩
      obtain rfl := Option.some.inj hi
      exact ⟨hf, hfree, Nat.lt_of_not_le hfar⟩

/-- The free bucket comes closer with each turn, so the loop never runs out of turns. -/
theorem closerBucket_enough {k k' fi : Nat} (hb : bi < m.shrhashSize) (h : m.TableOk) (hf : fi < m.shrhashSize)
    (hfree : (m.shrhash fi).shrblkIdx = 0) (hk : m.behind fi bi < k) (hk' : m.behind fi bi < k') :
    closerBucket bi k m fi = closerBucket bi k' m fi := by
  induction k generalizing m fi k' with
  | zero => omega
  | succ k ih =>
    obtain ⟨k', rfl⟩ : ∃ n, k' = n + 1 := ⟨k' - 1, by omega⟩
    rw [closerBucket, closerBucket]
    split_ifs with hfar
    · cases hmove : findMove m fi mlkShrhashNeighbors ((m.shrhashSize + fi - mlkShrhashNeighbors + 1) % m.shrhashSize) with
      | none => rfl
      | some sm =>
        obtain ⟨si, mi⟩ := sm
        obtain ⟨hs, hnear, hm, hne, hmark, hback⟩ := findMove_start hf hb hfar hmove
        obtain ⟨hsame, hfree'⟩ := moveBucket_spec h hs hm hf hne hfree hmark hnear
        have hcloser : m.behind mi bi < m.behind fi bi := by
          unfold mlkShrhashNeighbors at hfar
          rw [behind_eq hm hs, behind_eq hf hs] at hback
          rw [behind_eq hf hs] at hnear
          rw [behind_eq hf hb] at hfar
          rw [behind_eq hm hb, behind_eq hf hb]
          split_ifs at * <;> omega
        exact ih (m := m.moveBucket si mi fi) hb hsame.ok hm hfree' (show m.behind mi bi < k by omega) (show m.behind mi bi < k' by omega)
    · rfl

/-! ## Adding -/

theorem mlkShrhashFindBucket_spec {r : Option Nat} (h : m.TableOk) (hrun : mlkShrhashFindBucket m hash = (m', r)) :
    SameEntries m m' ∧ ∀ i, r = some i → i < m.shrhashSize ∧ (m'.shrhash i).shrblkIdx = 0 ∧ m.behind i (hash.toNat % m.shrhashSize) < 32 := by
  have hb : hash.toNat % m.shrhashSize < m.shrhashSize := Nat.mod_lt _ h.pos
  unfold mlkShrhashFindBucket at hrun
  cases hprobe : probeFree m (hash.toNat % m.shrhashSize) m.shrhashSize (hash.toNat % m.shrhashSize) with
  | none =>
    simp only [hprobe] at hrun
    obtain ⟨rfl, rfl⟩ := Prod.mk.inj hrun
    exact ⟨.refl h, nofun⟩
  | some fi =>
    simp only [hprobe] at hrun
    obtain ⟨hf, hfree⟩ := probeFree_some hb hprobe
    exact closerBucket_spec hb h hf hfree hrun

theorem put_insert {fi : Nat} (hnear : m.behind fi bi < 32) : Put m (mlkShrhashInsert m bi fi idx hash) fi bi idx hash := by
  refine ⟨rfl, fun j => ?_, fun j => ?_, fun b off => ?_⟩
  · simp only [mlkShrhashInsert, shrhash_modify]
    split_ifs <;> simp_all
  · simp only [mlkShrhashInsert, shrhash_modify]
    split_ifs <;> simp_all
  · simp only [mlkShrhashInsert, marked, shrhash_modify]
    split_ifs <;> simp_all [getLsbD_setNeighbor]

theorem put_here (hb : bi < m.shrhashSize) :
    Put m (m.modify bi fun b => { shrblkIdx := idx, hash, usedmap := setNeighbor b.usedmap 0 }) bi bi idx hash := by
  have hzero : m.behind bi bi = 0 := by rw [behind_eq hb hb]; simp
  refine ⟨rfl, fun j => ?_, fun j => ?_, fun b off => ?_⟩
  · split_ifs <;> simp_all
  · split_ifs <;> simp_all
  · simp only [marked, shrhash_modify]
    split_ifs <;> simp_all [getLsbD_setNeighbor]

/-- A node that is added is in the table with its hash, and nothing else changes; when there is no room for it, nothing does. -/
theorem mlkShrhashAdd_spec {shr : Nat} {added : Bool} (h : m.TableOk) (hshr : shr ≠ 0) (hnew : ∀ hx, ¬ m.Has shr hx)
    (hrun : mlkShrhashAdd m shr = (m', added)) : Kept m m' ∧ m'.TableOk ∧
      ∀ x hx, m'.Has x hx ↔ m.Has x hx ∨ (added = true ∧ x = shr ∧ hx = (m.shrblk shr).hash) := by
  have hb : (m.shrblk shr).hash.toNat % m.shrhashSize < m.shrhashSize := Nat.mod_lt _ h.pos
  have hfresh : ∀ {t : MlkHash}, SameEntries m t → ∀ j < t.shrhashSize, (t.shrhash j).shrblkIdx ≠ shr :=
    fun hsame j hj heq => hnew _ ((hsame.has_iff _ _).mp ⟨hshr, j, hj, heq, rfl⟩)
  unfold mlkShrhashAdd at hrun
  simp only at hrun
  split_ifs at hrun with hempty
  · obtain ⟨rfl, rfl⟩ := Prod.mk.inj hrun
    obtain ⟨hok, hhas⟩ := (put_here hb).tableOk h hb hempty hshr rfl (hfresh (.refl h))
    exact ⟨⟨rfl, rfl, rfl⟩, hok, fun x hx => by rw [hhas]; simp⟩
  · cases hfind : mlkShrhashFindBucket m (m.shrblk shr).hash with
    | mk m₁ r =>
      obtain ⟨hsame, hr⟩ := mlkShrhashFindBucket_spec h hfind
      rw [hfind] at hrun
      cases r with
      | none =>
        obtain ⟨rfl, rfl⟩ := Prod.mk.inj hrun
        exact ⟨hsame.kept, hsame.ok, fun x hx => by rw [hsame.has_iff]; simp⟩
      | some fi =>
        obtain ⟨rfl, rfl⟩ := Prod.mk.inj hrun
        obtain ⟨hf, hfree, hnear⟩ := hr fi rfl
        have hsize := hsame.kept.size
        rw [← behind_congr hsize] at hnear
        obtain ⟨hok, hhas⟩ := (put_insert hnear).tableOk hsame.ok (hsize ▸ hf) hfree hshr (by rw [hsize]) (hfresh hsame)
        exact ⟨hsame.kept.trans ⟨rfl, rfl, rfl⟩, hok, fun x hx => by rw [hhas, hsame.has_iff]; simp⟩

/-! ## Looking up and deleting -/

/-- The loop ends at a marked bucket that it looks for. -/
theorem neighborLoop_some (bi off : Nat) {found : Nat → Bool} {k si r : Nat}
    (h : neighborLoop m hash found k si ((m.shrhash bi).usedmap >>> off) = some r) (hsi : si = (bi + off) % m.shrhashSize) :
    ∃ off, m.marked bi off = true ∧ r = (bi + off) % m.shrhashSize ∧ (m.shrhash r).hash = hash ∧ found (m.shrhash r).shrblkIdx = true := by
  induction k generalizing si off with
  | zero => simp [neighborLoop] at h
  | succ k ih =>
    rw [neighborLoop] at h
    have hnext : m.next si = (bi + (off + 1)) % m.shrhashSize := by rw [next, hsi, Nat.mod_add_mod, Nat.add_assoc]
    split_ifs at h with h0 h1 h2 h3
    · exact ih (off + 1) h hnext
    · exact ih (off + 1) h hnext
    · exact ih (off + 1) h hnext
    · obtain rfl := Option.some.inj h
      rw [Bool.not_eq_false] at h1
      exact ⟨off, h1, hsi, not_ne_iff.mp h2, by simpa using h3⟩

/-- It passes no marked bucket that it looks for. -/
theorem neighborLoop_isSome (bi off : Nat) {found : Nat → Bool} {k si j : Nat} (hsi : si = (bi + off) % m.shrhashSize) (hle : off ≤ j)
    (hlt : j < off + k) (hj : m.marked bi j = true) (hhash : (m.shrhash ((bi + j) % m.shrhashSize)).hash = hash)
    (hfound : found (m.shrhash ((bi + j) % m.shrhashSize)).shrblkIdx = true) :
    (neighborLoop m hash found k si ((m.shrhash bi).usedmap >>> off)).isSome = true := by
  induction k generalizing si off with
  | zero => omega
  | succ k ih =>
    have hnext : m.next si = (bi + (off + 1)) % m.shrhashSize := by rw [next, hsi, Nat.mod_add_mod, Nat.add_assoc]
    have hmap : (m.shrhash bi).usedmap >>> off ≠ 0 := by
      intro h0
      have hbit : ((m.shrhash bi).usedmap >>> off).getLsbD (j - off) = true := by
        rw [BitVec.getLsbD_ushiftRight, show off + (j - off) = j by omega]
        exact hj
      rw [h0] at hbit
      simp at hbit
    rw [neighborLoop, if_neg hmap]
    rcases Nat.eq_or_lt_of_le hle with rfl | hlt'
    · subst hsi
      have hbit : ((m.shrhash bi).usedmap >>> off).getLsbD 0 = true := by rw [BitVec.getLsbD_ushiftRight]; exact hj
      simp only [hbit, Bool.true_eq_false, if_false, hhash, ne_eq, not_true_eq_false, hfound, Bool.not_true, Bool.false_eq_true, Option.isSome_some]
    · have hrest := ih (off + 1) hnext (by omega) (by omega)
      split_ifs
      exacts [hrest, hrest, hrest, rfl]

/-- The loop over the map of the bucket that a hash belongs to. -/
theorem neighborLoop_spec (h : m.TableOk) (hash : BitVec 32) (found : Nat → Bool) :
    let bi := hash.toNat % m.shrhashSize
    (∀ r, neighborLoop m hash found mlkShrhashNeighbors bi (m.shrhash bi).usedmap = some r →
      r < m.shrhashSize ∧ m.Has (m.shrhash r).shrblkIdx hash ∧ m.home r = bi ∧ found (m.shrhash r).shrblkIdx = true) ∧
    ∀ d, m.Has d hash → found d = true → (neighborLoop m hash found mlkShrhashNeighbors bi (m.shrhash bi).usedmap).isSome = true := by
  intro bi
  have hb : bi < m.shrhashSize := Nat.mod_lt _ h.pos
  have hstart : bi = (bi + 0) % m.shrhashSize := by rw [Nat.add_zero, Nat.mod_eq_of_lt hb]
  refine ⟨fun r hr => ?_, fun d hd hfound => ?_⟩
  · obtain ⟨off, hoff, rfl, hhash, hfound⟩ := neighborLoop_some bi 0 (by simpa using hr) hstart
    obtain ⟨hused, hhome⟩ := h.entry hb hoff
    have hlt := Nat.mod_lt (bi + off) h.pos
    exact ⟨hlt, ⟨hused, _, hlt, rfl, hhash⟩, hhome, hfound⟩
  · obtain ⟨h0, i, hi, hid, hih⟩ := hd
    have hadd := add_behind hi hb
    have hmark : m.marked bi (m.behind i bi) = true := (h.marked_iff _ hb i hi).mpr ⟨hid ▸ h0, by rw [home, hih]⟩
    have hlt : m.behind i bi < 32 := by
      by_contra hge
      rw [marked, BitVec.getLsbD_of_ge _ _ (by omega)] at hmark
      simp at hmark
    have hfound' : found (m.shrhash ((bi + m.behind i bi) % m.shrhashSize)).shrblkIdx = true := by rw [hadd, hid]; exact hfound
    have hloop := neighborLoop_isSome bi 0 (k := 32) hstart (Nat.zero_le _) (by omega) hmark (by rw [hadd, hih]) hfound'
    simpa [mlkShrhashNeighbors] using hloop

/-- The node that is found has the hash, the parent and the subscript. -/
theorem mlkShrhashFind_some {v : List UInt8} {parent d : Nat} (h : m.TableOk) (hfind : mlkShrhashFind m hash v parent = some d) :
    m.Has d hash ∧ (m.shrblk d).parent = parent ∧ (m.shrblk d).value = v := by
  obtain ⟨r, hr, rfl⟩ := Option.map_eq_some_iff.mp hfind
  obtain ⟨-, hhas, -, hchild⟩ := (neighborLoop_spec h hash _).1 r hr
  simp only [isChild, Bool.and_eq_true, beq_iff_eq] at hchild
  exact ⟨hhas, hchild⟩

/-- A node of the table that has them all is not missed. -/
theorem mlkShrhashFind_isSome {v : List UInt8} {parent d : Nat} (h : m.TableOk) (hd : m.Has d hash)
    (hparent : (m.shrblk d).parent = parent) (hvalue : (m.shrblk d).value = v) : (mlkShrhashFind m hash v parent).isSome = true := by
  have := (neighborLoop_spec h hash (m.isChild parent v)).2 d hd (by simp [isChild, hparent, hvalue])
  simpa [mlkShrhashFind] using this

/-- A node of the table that is deleted is no longer in it, and nothing else changes. -/
theorem mlkShrhashDelete_spec {d : Nat} (h : m.TableOk) (hd : m.Has d (m.shrblk d).hash) :
    Kept m (mlkShrhashDelete m d) ∧ (mlkShrhashDelete m d).TableOk ∧ ∀ x hx, (mlkShrhashDelete m d).Has x hx ↔ m.Has x hx ∧ x ≠ d := by
  obtain ⟨hsome, hfind⟩ := neighborLoop_spec h (m.shrblk d).hash fun idx => idx == d
  obtain ⟨si, hsi⟩ := Option.isSome_iff_exists.mp (hfind d hd (by simp))
  obtain ⟨hlt, ⟨hused, -⟩, hhome, hd'⟩ := hsome si hsi
  obtain rfl : (m.shrhash si).shrblkIdx = d := by simpa using hd'
  unfold mlkShrhashDelete
  simp only [hsi]
  exact ⟨⟨rfl, rfl, rfl⟩, (taken_at si _).tableOk h hlt hused hhome⟩

end MlkHash

end Gtm
