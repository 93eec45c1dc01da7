import Gtm.Lemmas.BlkTail

/-!
# Searching a block without decompressing it

On every block that `cert_blk` accepts, `gvcst_search_blk` finds the position, and the match counts, of a search that decompresses
every key. `gvcst_search_tail`, given what a search for a smaller key has left, finds the same in a block of level 0; an index
block, which it is never called for, ends with a record that it does not know.
-/

namespace Gtm

open CommonPrefix

/-- Every key of the block fits into a buffer of `top` bytes. -/
def KeysFit (b : GdsBlk) (top : Nat) : Prop := ∀ r ∈ decompress b b.bsiz blkHdrSize [], (r.2.getD []).length ≤ top

theorem KeysFit.entries {b : GdsBlk} {es : List Entry} {top : Nat} (h : WfBlk b es) (hfit : KeysFit b top) :
    ∀ e ∈ es, e.keyBytes.length ≤ top := by
  intro e he
  obtain ⟨o, ho⟩ := mem_placed blkHdrSize [] he
  rw [← decompress_eq_placed h.laid h.contents (Nat.le_add_right _ _)] at ho
  exact hfit _ ho

/-- `gvcst_search_blk` finds what a search finds that decompresses every key, and leaves the key of the record before in
`gv_altkey` where that is wanted. -/
theorem gvcstSearchBlk_naive {cenv : CertEnv} {env : SrchEnv} {b : GdsBlk} {key : List UInt8} (hcert : certBlk cenv b = true)
    (hsize : env.blkSize = cenv.blkSize) (hkey : isKey key = true) (hfit : env.expandPrevKey = true → KeysFit b env.altTop)
    (stat : SrchStat) (altkey : List UInt8) :
    gvcstSearchBlk env b key stat altkey =
      ⟨.normal, naiveSearch b key, if b.levl = 0 ∧ env.expandPrevKey = true then naivePrevKey b key else altkey⟩ := by
  obtain ⟨hb, es, h⟩ := certBlk_wf hcert
  have hnaive := naiveSearch_eq h key
  rw [gvcstSearchBlk_wf h (hsize ▸ hb) hkey (fun he => (hfit he).entries h), ← hnaive]

/-- What the process has for a search of small keys. -/
def smallEnv (expandPrevKey : Bool) : SrchEnv := ⟨512, expandPrevKey, 64, false⟩

/-- The leaf with `^A` and `^A(1)`. -/
def leafOfA : GdsBlk :=
  ⟨true, 0, 33, fun i => [8, 0, 0, 0, 65, 0, 0, 49, 9, 0, 2, 0, 191, 17, 0, 0, 120].getD (i - 16) 0⟩

theorem gvcstSearchBlk_naive_leaf :
    certBlk ⟨512, 512, 101, false, false, .none, 3, 2⟩ leafOfA = true ∧
      gvcstSearchBlk (smallEnv true) leafOfA [65, 0, 191, 33, 0, 0] ⟨⟨0, 0⟩, ⟨0, 0⟩⟩ [] =
        ⟨.normal, ⟨⟨24, 3⟩, ⟨33, 0⟩⟩, [65, 0, 191, 17, 0, 0]⟩ := by
  have hcert : certBlk ⟨512, 512, 101, false, false, .none, 3, 2⟩ leafOfA = true := by decide
  refine ⟨hcert, ?_⟩
  rw [gvcstSearchBlk_naive hcert rfl (by decide) (fun _ => by unfold KeysFit; decide)]
  decide

/-- Resuming the search of a leaf behind a smaller key finds what a search from its start finds. -/
theorem gvcstSearchTail_eq {cenv : CertEnv} (env₀ env : SrchEnv) {b : GdsBlk} (key old : List UInt8)
    (hcert : certBlk cenv b = true) (hlevl : b.levl = 0) (hsize₀ : env₀.blkSize = cenv.blkSize) (hsize : env.blkSize = cenv.blkSize)
    (hfit₀ : env₀.expandPrevKey = true → KeysFit b env₀.altTop) (hfit : env.expandPrevKey = true → KeysFit b env.altTop)
    (hold : isKey old = true) (hkey : isKey key = true) (hlt : old < key) (stat : SrchStat) (altkey₀ altkey : List UInt8)
    (prevKey : Option (List UInt8)) (hprev : prevKey = none ∨ prevKey = some (naivePrevKey b old)) :
    let left := (gvcstSearchBlk env₀ b old stat altkey₀).stat
    (gvcstSearchTail env b key old left altkey prevKey).stat = (gvcstSearchBlk env b key left altkey).stat ∧
      (env.expandPrevKey = false ∨ env.keyAbove = false →
        gvcstSearchTail env b key old left altkey prevKey = gvcstSearchBlk env b key left altkey) := by
  obtain ⟨hb, es, h⟩ := certBlk_wf hcert
  have hnaive : ∀ k, naiveSearch b k = (searchEntries k ⟨0, 0⟩ [] blkHdrSize es).1 := fun k => congrArg Prod.fst (naiveSearch_eq h k)
  have hprevKey : naivePrevKey b key = (searchEntries key ⟨0, 0⟩ [] blkHdrSize es).2 := congrArg Prod.snd (naiveSearch_eq h key)
  have hb' : b.bsiz ≤ env.blkSize := hsize ▸ hb
  intro left
  have hleft : left = naiveSearch b old := by
    rw [hnaive]
    exact congrArg SrchOut.stat (gvcstSearchBlk_wf h (hsize₀ ▸ hb) hold (fun he => (hfit₀ he).entries h) stat altkey₀)
  have hblk : gvcstSearchBlk env b key left altkey =
      ⟨.normal, naiveSearch b key, if env.expandPrevKey = true then naivePrevKey b key else altkey⟩ := by
    rw [gvcstSearchBlk_wf h hb' hkey (fun he => (hfit he).entries h) left altkey, hnaive, hprevKey]
    simp only [hlevl, true_and]
  obtain ⟨hstat, hout, -⟩ := gvcstSearchTail_wf h hlevl hb' (fun he => (hfit he).entries h) hold hkey hlt altkey hprev
  rw [hblk, hleft]
  exact ⟨hstat, hout⟩

theorem gvcstSearchTail_eq_leaf :
    certBlk ⟨512, 512, 101, false, false, .none, 3, 2⟩ leafOfA = true ∧
      (gvcstSearchBlk (smallEnv false) leafOfA [65, 0, 191, 1, 0, 0] ⟨⟨0, 0⟩, ⟨0, 0⟩⟩ []).stat = ⟨⟨16, 2⟩, ⟨24, 3⟩⟩ ∧
      gvcstSearchTail (smallEnv true) leafOfA [65, 0, 191, 33, 0, 0] [65, 0, 191, 1, 0, 0] ⟨⟨16, 2⟩, ⟨24, 3⟩⟩ [] none =
        ⟨.normal, ⟨⟨24, 3⟩, ⟨33, 0⟩⟩, [65, 0, 191, 17, 0, 0]⟩ := by
  have hcert : certBlk ⟨512, 512, 101, false, false, .none, 3, 2⟩ leafOfA = true := by decide
  have hleft : (gvcstSearchBlk (smallEnv false) leafOfA [65, 0, 191, 1, 0, 0] ⟨⟨0, 0⟩, ⟨0, 0⟩⟩ []).stat = ⟨⟨16, 2⟩, ⟨24, 3⟩⟩ := by
    decide
  refine ⟨hcert, hleft, ?_⟩
  have htail := gvcstSearchTail_eq (smallEnv false) (smallEnv true) [65, 0, 191, 33, 0, 0] [65, 0, 191, 1, 0, 0] hcert rfl rfl rfl
    nofun (fun _ => by unfold KeysFit; decide) (by decide) (by decide) (by decide)
    ⟨⟨0, 0⟩, ⟨0, 0⟩⟩ [] [] none (.inl rfl)
  simp only [hleft] at htail
  rw [htail.2 (.inr rfl)]
  decide

/-- The index block with the children for the keys up to `^B` and for those behind. -/
def indexOfB : GdsBlk :=
  ⟨true, 1, 43, fun i => [15, 0, 0, 0, 66, 0, 0, 5, 0, 0, 0, 0, 0, 0, 0, 12, 0, 0, 0, 3, 0, 0, 0, 0, 0, 0, 0].getD (i - 16) 0⟩

/-- In an index block the resumed search passes the star-key record. -/
theorem gvcstSearchTail_passes_star :
    certBlk ⟨512, 512, 101, false, false, .none, 4, 2⟩ indexOfB = true ∧
      isKey [67, 0, 0] = true ∧ isKey [68, 0, 0] = true ∧ ([67, 0, 0] : List UInt8) < [68, 0, 0] ∧
      (gvcstSearchTail (smallEnv false) indexOfB [68, 0, 0] [67, 0, 0]
        (gvcstSearchBlk (smallEnv false) indexOfB [67, 0, 0] ⟨⟨0, 0⟩, ⟨0, 0⟩⟩ []).stat [] none).stat = ⟨⟨31, 0⟩, ⟨43, 0⟩⟩ ∧
      (gvcstSearchBlk (smallEnv false) indexOfB [68, 0, 0] ⟨⟨0, 0⟩, ⟨0, 0⟩⟩ []).stat = ⟨⟨16, 0⟩, ⟨31, 0⟩⟩ := by
  decide

end Gtm
