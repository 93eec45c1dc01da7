import Gtm.Lemmas.ShrhashTable

/-!
# Making room in the hash table

`mlk_shrhash_find_bucket` moves entries until there is a free bucket near enough, or gives up on the way.
-/

namespace Gtm

open MlkHash

namespace FindBucketAux

variable {m : MlkHash} {bi : Nat}

/-- The search for a free bucket comes back to its start before it runs out of turns. -/
theorem probeFree_enough {k k' fi : Nat} (hb : bi < m.shrhashSize) (hf : fi < m.shrhashSize)
    (hk : m.shrhashSize ≤ k + m.behind fi bi) (hk' : m.shrhashSize ≤ k' + m.behind fi bi) : probeFree m bi k fi = probeFree m bi k' fi := by
  have hlt := behind_lt hf hb
  induction k generalizing fi k' with
  | zero => omega
  | succ k ih =>
    obtain ⟨k', rfl⟩ : ∃ n, k' = n + 1 := ⟨k' - 1, by omega⟩
    rw [probeFree, probeFree]
    split_ifs with hfree hback
    · rfl
    · rfl
    · have hnext : m.behind (m.next fi) bi = m.behind fi bi + 1 := by
        rw [behind_eq hf hb] at hlt ⊢
        rw [behind_eq (next_lt (by omega) fi) hb]
        have : m.next fi = if fi + 1 < m.shrhashSize then fi + 1 else 0 := by
          rw [MlkHash.next, ← Nat.mod_add_mod, Nat.mod_eq_of_lt hf]
          split
          · exact Nat.mod_eq_of_lt ‹_›
          · rw [show fi + 1 = m.shrhashSize by omega, Nat.mod_self]
        split_ifs at * <;> omega
      have hnlt := next_lt (show 0 < m.shrhashSize by omega) fi
      exact ih hnlt (by omega) (by omega) (behind_lt hnlt hb)

/-- The search for an entry to move comes to the free bucket before it runs out of turns. -/
theorem findMove_enough {k j fi si : Nat} (hf : fi < m.shrhashSize) (hs : si < m.shrhashSize)
    (hk : m.behind fi si < k) (hj : m.behind fi si < j) : findMove m fi k si = findMove m fi j si := by
  induction k generalizing si j with
  | zero => omega
  | succ k ih =>
    obtain ⟨j, rfl⟩ : ∃ n, j = n + 1 := ⟨j - 1, by omega⟩
    rw [findMove, findMove]
    by_cases hsi : si = fi
    · rw [if_pos hsi, if_pos hsi]
    · have hnext := behind_next hs hf hsi
      rw [if_neg hsi, if_neg hsi, ih (j := j) (next_lt (by omega) si) (by omega) (by omega)]

end FindBucketAux

open FindBucketAux

/-- The loops of `mlk_shrhash_find_bucket` end: more turns give nothing else. -/
structure FindBucketEnds (m : MlkHash) (bi : Nat) : Prop where
  probe : ∀ k, probeFree m bi (m.shrhashSize + k) bi = probeFree m bi m.shrhashSize bi
  closer : ∀ k, ∀ fi < m.shrhashSize, (m.shrhash fi).shrblkIdx = 0 →
    closerBucket bi (m.shrhashSize + k) m fi = closerBucket bi m.shrhashSize m fi
  /-- This goes for the table that the moves before have left, too. -/
  move : ∀ (t : MlkHash) (k : Nat), ∀ fi < t.shrhashSize, mlkShrhashNeighbors ≤ t.shrhashSize →
    findMove t fi (mlkShrhashNeighbors + k) ((t.shrhashSize + fi - mlkShrhashNeighbors + 1) % t.shrhashSize) =
      findMove t fi mlkShrhashNeighbors ((t.shrhashSize + fi - mlkShrhashNeighbors + 1) % t.shrhashSize)

end Gtm
