import Gtm.Lemmas.BlkMaps
import Gtm.Gds.MapBuild

/-!
# Searching for free blocks

`bmm_find_free` finds the next bit of the master map that is set, around the end of the map if need be. In a local bitmap `bm_find_blk`
finds the next block that is not busy, without going around, and `bml_find_free` one of them, if there is any: but a hint in the byte
just behind the bitmap is taken for one inside.
-/

namespace Gtm

open Scan

/-- `bmm_find_free` finds the first set bit from the hint on, or else the first one below the hint, and none behind the end. -/
theorem bmmFindFree_wraps (hint : Nat) (addr : Nat → UInt8) (total : Nat) :
    ∃ r r', FirstIn (mapBit addr) hint total r ∧ FirstIn (mapBit addr) 0 (min hint total) r' ∧
      bmmFindFree hint addr total = r.or r' ∧ ∀ b, bmmFindFree hint addr total = some b → b < total := by
  have hmax : 0 < maxFfsSize := by decide
  have hpass : ∀ start top, start ≤ top → FirstIn (mapBit addr) start top
      (bmmPass addr top start (min top (start / maxFfsSize * maxFfsSize + maxFfsSize) - start)) := fun start top h => by
    have hchunk : start < start / maxFfsSize * maxFfsSize + maxFfsSize := Nat.lt_div_mul_add hmax
    exact bmmPass_firstIn (by omega) (by omega)
  obtain ⟨r, r', hr, hr', heq⟩ : ∃ r r', FirstIn (mapBit addr) hint total r ∧ FirstIn (mapBit addr) 0 (min hint total) r' ∧
      bmmFindFree hint addr total = r.or r' := by
    rcases Nat.lt_or_ge hint total with hlt | hge
    · have hne : total ≠ 0 := by omega
      rw [min_eq_left hlt.le]
      simp only [bmmFindFree, if_neg (not_le.2 hlt), if_neg hne]
      refine ⟨_, _, hpass hint total hlt.le, ?_, rfl⟩
      split_ifs with h0
      · exact firstIn_empty h0.le
      · exact hpass 0 hint (Nat.zero_le _)
    · rw [min_eq_right hge]
      by_cases h0 : total = 0
      · exact ⟨none, none, firstIn_empty hge, firstIn_empty h0.le, by simp [bmmFindFree, h0]⟩
      · refine ⟨none, _, firstIn_empty hge, hpass 0 total (Nat.zero_le _), ?_⟩
        simp only [bmmFindFree, if_pos hge, if_neg h0, if_true, Option.or_none, Option.none_or]
  refine ⟨r, r', hr, hr', heq, fun b hb => ?_⟩
  rw [heq] at hb
  rcases Option.or_eq_some_iff.1 hb with rfl | ⟨-, rfl⟩
  · exact hr.2.1
  · exact hr'.2.1.trans_le (min_le_right _ _)

/-- A bitmap of six blocks that are busy, but the last, and of the entries that are left over. -/
def sixBlocks (last : UInt8) (i : Nat) : UInt8 := [0, 0x50 + last].getD i 0x55

end Gtm

/-!
## Committing and recovering a bitmap

`sec_shr_map_build` leaves the bitmap that `gvcst_map_build` leaves: the listed blocks have the status of the change, and all others
the one they had. The free blocks become fewer by the `reference_cnt` of the change.
-/

namespace Gtm

open Function

/-- The blocks of an update array. -/
def listedBlks (array : List Nat) : List Nat := array.takeWhile (· ≠ 0)

/-- The status that the routine sets. -/
def BmlFunc.status : BmlFunc → BmStatus
  | .busy => .busy
  | .free => .free
  | .recycled => .recycled

/-- The blocks of a bitmap that can be allocated. -/
def freeBlks (n : Nat) (base : Nat → UInt8) : Finset Nat := (Finset.range n).filter fun i => (getBmStatus base i).open

/-- What the code asserts of an update array: it ascends within the bitmap, a block that is set busy was not, and the count of the
change is its `reference_cnt`. -/
structure MapCse.Accounts (cs : MapCse) (env : MapEnv) (array : List Nat) (base : Nat → UInt8) (actualCnt : Int) : Prop where
  ascending : (listedBlks array).Pairwise (· < ·)
  inside {i : Nat} (h : i ∈ listedBlks array) : i < env.bplmap
  open_ {i : Nat} (hcnt : cs.referenceCnt > 0) (h : i ∈ listedBlks array) : (getBmStatus base i).open
  count : actualCnt = cs.referenceCnt

namespace MapBuildAux

section Mark

variable {base : Nat → UInt8} {func : BmlFunc} {b : Nat}

/-- The changes of one byte, and the bit that both look at to say whether a block can be allocated, tried for all bytes and all places. -/
theorem byte_changes (c : UInt8) : ∀ i < 4,
    ((c &&& ~~~((1 : UInt8) <<< UInt8.ofNat (i * 2))) &&& ~~~((1 : UInt8) <<< UInt8.ofNat (i * 2 + 1)) = secShrMark .busy (i * 2) c ∧
      (c ||| (1 : UInt8) <<< UInt8.ofNat (i * 2)) &&& ~~~((1 : UInt8) <<< UInt8.ofNat (i * 2 + 1)) = secShrMark .free (i * 2) c ∧
      (c ||| (1 : UInt8) <<< UInt8.ofNat (i * 2)) ||| (1 : UInt8) <<< UInt8.ofNat (i * 2 + 1) = secShrMark .recycled (i * 2) c) ∧
    ((1 : UInt8) <<< UInt8.ofNat (i * 2) &&& c ≠ 0 ↔ (byteStatus c i).open) ∧
    ((c >>> UInt8.ofNat (i * 2)) &&& 1 = 0 ↔ ¬(byteStatus c i).open) ∧
    ∀ func ∈ [BmlFunc.busy, .free, .recycled], ∀ j < 4,
      byteStatus (secShrMark func (i * 2) c) j = if j = i then func.status else byteStatus c j := by
  apply forall_byte _ c
  decide +kernel

theorem byteStatus_mark (c : UInt8) (func : BmlFunc) {i j : Nat} (hi : i < 4) (hj : j < 4) :
    byteStatus (secShrMark func (i * 2) c) j = if j = i then func.status else byteStatus c j :=
  (byte_changes c i hi).2.2.2 func (by cases func <;> simp) j hj

/-- The bitmap with the entry of one block set. -/
def marked (func : BmlFunc) (b : Nat) (base : Nat → UInt8) : Nat → UInt8 :=
  update base (b * 2 / 8) (secShrMark func (b * 2 % 8) (base (b * 2 / 8)))

theorem getBmStatus_marked (func : BmlFunc) (b : Nat) (base : Nat → UInt8) (i : Nat) :
    getBmStatus (marked func b base) i = if i = b then func.status else getBmStatus base i := by
  have hb : b * 2 % 8 = b % 4 * 2 := by omega
  have hi := getBmStatus_byte (marked func b base) (Nat.mod_lt i (show 0 < 4 by decide)) (q := i / 4)
  have hi' := getBmStatus_byte base (Nat.mod_lt i (show 0 < 4 by decide)) (q := i / 4)
  rw [Nat.div_add_mod] at hi hi'
  rw [hi, hi', marked, hb]
  by_cases hq : i / 4 = b * 2 / 8
  · rw [hq, update_self, byteStatus_mark _ _ (Nat.mod_lt _ (by decide)) (Nat.mod_lt _ (by decide))]
    exact if_congr (by omega) rfl rfl
  · rw [update_of_ne hq, if_neg (by omega)]

/-- The three routines set the entry as `sec_shr_map_build` does, and return whether the block could be allocated. -/
theorem call_eq (func : BmlFunc) (b : Nat) (base : Nat → UInt8) :
    func.call b base = (decide (getBmStatus base b).open, marked func b base) := by
  have hbit : b * 2 % 8 = b % 4 * 2 := by omega
  have hbit' : (b * 2 + 1) % 8 = b % 4 * 2 + 1 := by omega
  have hptr : (b * 2 + 1) / 8 = b * 2 / 8 := by omega
  have hlt : b % 4 < 4 := Nat.mod_lt _ (by decide)
  have hstatus := getBmStatus_byte base hlt (q := b / 4)
  rw [Nat.div_add_mod, show b / 4 = b * 2 / 8 by omega] at hstatus
  obtain ⟨hbusy, hfree, hrecycled⟩ := (byte_changes (base (b * 2 / 8)) _ hlt).1
  have hret := (byte_changes (base (b * 2 / 8)) _ hlt).2.1
  cases func with
  | busy => simp only [BmlFunc.call, bmlBusy, bitClear, hptr, hbit, hbit', update_self, update_idem, hbusy, hret, hstatus, marked]
  | free => simp only [BmlFunc.call, bmlFree, bitSet, bitClear, hptr, hbit, hbit', update_self, update_idem, hfree, hret, hstatus, marked]
  | recycled => simp only [BmlFunc.call, bmlRecycled, bitSet, hptr, hbit, hbit', update_self, update_idem, hrecycled, hret, hstatus, marked]

/-- What an entry counts. -/
def counted (func : BmlFunc) (b : Nat) (base : Nat → UInt8) : Int :=
  if func = .busy then 1 else if (getBmStatus base b).open then 0 else -1

end Mark

section Loop

variable {func : BmlFunc} {cs : MapCse}

/-- Both loops mark the listed blocks one after the other. -/
theorem loops_cons {b : Nat} (hb : b ≠ 0) (hfunc : func = .busy ↔ cs.referenceCnt > 0) (array : List Nat) (base : Nat → UInt8) (cnt : Int) :
    gvcstMapLoop func cs (b :: array) base cnt = gvcstMapLoop func cs array (marked func b base) (cnt + counted func b base) ∧
      secShrMapLoop func (b :: array) base cnt = secShrMapLoop func array (marked func b base) (cnt + counted func b base) := by
  have hlt : b % 4 < 4 := Nat.mod_lt _ (by decide)
  have hstatus := getBmStatus_byte base hlt (q := b / 4)
  rw [Nat.div_add_mod, show b / 4 = b * 2 / 8 by omega] at hstatus
  have hprev := (byte_changes (base (b * 2 / 8)) _ hlt).2.2.1
  rw [← hstatus, show b % 4 * 2 = b * 2 % 8 by omega] at hprev
  constructor
  · rw [gvcstMapLoop, if_neg hb, call_eq]
    simp only [counted, hfunc, decide_eq_false_iff_not]
    congr 1
    split_ifs <;> omega
  · rw [secShrMapLoop, if_neg hb]
    simp only [counted, hprev]
    congr 1
    split_ifs <;> omega

section
variable (hfunc : func = .busy ↔ cs.referenceCnt > 0) (array : List Nat) (base : Nat → UInt8) (cnt : Int)
include hfunc array base cnt

theorem loops_eq : secShrMapLoop func array base cnt = gvcstMapLoop func cs array base cnt := by
  induction array generalizing base cnt with
  | nil => rfl
  | cons b array ih =>
    by_cases hb : b = 0
    · rw [secShrMapLoop, gvcstMapLoop, if_pos hb, if_pos hb]
    · obtain ⟨hg, hs⟩ := loops_cons hb hfunc array base cnt
      rw [hg, hs, ih]

theorem gvcstMapLoop_status (i : Nat) :
    getBmStatus (gvcstMapLoop func cs array base cnt).1 i = if i ∈ listedBlks array then func.status else getBmStatus base i := by
  induction array generalizing base cnt with
  | nil => simp [gvcstMapLoop, listedBlks]
  | cons b array ih =>
    by_cases hb : b = 0
    · simp [gvcstMapLoop, listedBlks, hb]
    · have hlisted : listedBlks (b :: array) = b :: listedBlks array := by simp [listedBlks, hb]
      rw [(loops_cons hb hfunc array base cnt).1, ih, getBmStatus_marked, hlisted]
      by_cases hi : i ∈ listedBlks array
      · simp [hi]
      · simp [hi]

end

/-- The free blocks change by what is counted. -/
theorem card_marked {n b : Nat} (hb : b < n) (base : Nat → UInt8) (hopen : func = .busy → (getBmStatus base b).open) :
    ((freeBlks n (marked func b base)).card : Int) = (freeBlks n base).card - counted func b base := by
  have hmem : ∀ i, i ∈ freeBlks n (marked func b base) ↔ i < n ∧ (if i = b then func.status else getBmStatus base i).open := fun i => by
    simp [freeBlks, getBmStatus_marked]
  have hmem' : ∀ i, i ∈ freeBlks n base ↔ i < n ∧ (getBmStatus base i).open := fun i => by simp [freeBlks]
  have hrest : ∀ i, i ≠ b → (i ∈ freeBlks n (marked func b base) ↔ i ∈ freeBlks n base) := fun i hi => by rw [hmem, hmem', if_neg hi]
  by_cases hbusy : func = .busy
  · have hold : b ∈ freeBlks n base := (hmem' b).2 ⟨hb, hopen hbusy⟩
    have herase : freeBlks n (marked func b base) = (freeBlks n base).erase b := by
      ext i
      rw [Finset.mem_erase]
      by_cases hi : i = b
      · refine iff_of_false (fun h => ?_) fun h => h.1 hi
        have hnew := ((hmem i).1 h).2
        rw [if_pos hi, hbusy] at hnew
        exact absurd hnew (by decide)
      · simp [hrest i hi, hi]
    have hpos := Finset.card_pos.2 ⟨b, hold⟩
    rw [herase, Finset.card_erase_of_mem hold, counted, if_pos hbusy]
    omega
  · have hstatus : func.status.open := by
      revert hbusy
      cases func <;> decide
    have hinsert : freeBlks n (marked func b base) = insert b (freeBlks n base) := by
      ext i
      by_cases hi : i = b
      · subst hi
        simp [hmem, hb, hstatus]
      · simp [hrest i hi, hi]
    rw [hinsert, counted]
    split_ifs with hold
    · rw [Finset.insert_eq_of_mem ((hmem' b).2 ⟨hb, hold⟩), sub_zero]
    · rw [Finset.card_insert_of_notMem fun h => hold ((hmem' b).1 h).2]
      omega

theorem gvcstMapLoop_card (hfunc : func = .busy ↔ cs.referenceCnt > 0) {n : Nat} (array : List Nat) (base : Nat → UInt8) (cnt : Int)
    (hasc : (listedBlks array).Pairwise (· < ·)) (hin : ∀ i ∈ listedBlks array, i < n)
    (hopen : func = .busy → ∀ i ∈ listedBlks array, (getBmStatus base i).open) :
    ((freeBlks n (gvcstMapLoop func cs array base cnt).1).card : Int) =
      (freeBlks n base).card - ((gvcstMapLoop func cs array base cnt).2 - cnt) := by
  induction array generalizing base cnt with
  | nil => simp [gvcstMapLoop]
  | cons b array ih =>
    by_cases hb : b = 0
    · simp [gvcstMapLoop, hb]
    · have hlisted : listedBlks (b :: array) = b :: listedBlks array := by simp [listedBlks, hb]
      rw [hlisted] at hasc hin hopen
      obtain ⟨hlt, hasc⟩ := List.pairwise_cons.1 hasc
      have hrest := ih (marked func b base) (cnt + counted func b base) hasc (fun i hi => hin i (by simp [hi])) fun hbusy i hi => by
        rw [getBmStatus_marked, if_neg (hlt i hi).ne']
        exact hopen hbusy i (by simp [hi])
      rw [(loops_cons hb hfunc array base cnt).1, hrest, card_marked (hin b (by simp)) base fun hbusy => hopen hbusy b (by simp)]
      omega

end Loop

/-- Blocks are set busy exactly when the count is positive. -/
theorem determine_busy (env : MapEnv) (cs : MapCse) (nl : MapNl) :
    ((determineBmlFunc env cs nl).1 = .busy ↔ (determineBmlFunc env cs nl).2.1.referenceCnt > 0) ∧
      (determineBmlFunc env cs nl).2.1.referenceCnt = cs.referenceCnt ∧ (determineBmlFunc env cs nl).2.1.blk = cs.blk := by
  simp only [determineBmlFunc, determineBmlFuncCommon]
  split_ifs <;> simp_all

/-- The bit of the master map that `bit_set` and `bit_clear` change. -/
theorem mapBit_update (mm : Nat → UInt8) (k i : Nat) :
    (mapBit (bitSet k mm).2 i ↔ i = k ∨ mapBit mm i) ∧ (mapBit (bitClear k mm).2 i ↔ i ≠ k ∧ mapBit mm i) := by
  have hmask : ∀ i < 8, ∀ j < 8, ((1 : UInt8) <<< UInt8.ofNat i).toNat.testBit j = decide (j = i) ∧
      (~~~((1 : UInt8) <<< UInt8.ofNat i)).toNat.testBit j = decide (j ≠ i) := by decide
  obtain ⟨hset, hclear⟩ := hmask (k % 8) (Nat.mod_lt _ (by decide)) (i % 8) (Nat.mod_lt _ (by decide))
  simp only [mapBit, bitSet, bitClear]
  by_cases hq : i / 8 = k / 8
  · have heq : i % 8 = k % 8 ↔ i = k := by omega
    rw [hq, update_self, update_self, UInt8.toNat_or, UInt8.toNat_and, Nat.testBit_or, Nat.testBit_and, hset, hclear]
    simp only [heq, Bool.or_eq_true, Bool.and_eq_true, decide_eq_true_eq, ne_eq]
    tauto
  · have hne : i ≠ k := fun h => hq (by rw [h])
    simp [hq, hne]

end MapBuildAux

open MapBuildAux

/-- Recovery leaves the bitmap of the commit. In it the listed blocks have the status of the change, and the others the one before.
The free blocks are fewer by the count of the change. The bit of the master map tells whether there is a block that is not busy. -/
theorem secShrMapBuild_eq (env : MapEnv) (array : List Nat) (b : BmBlk) (cs : MapCse) (nl : MapNl) (ctn : Nat) :
    let commit := gvcstMapBuild env array b cs nl ctn
    let recovery := secShrMapBuild env array b cs nl ctn
    (recovery.blk = commit.blk ∧ recovery.actualCnt = commit.actualCnt) ∧
      (∀ i, getBmStatus commit.blk.byte i = if i ∈ listedBlks array then (determineBmlFunc env cs nl).1.status else getBmStatus b.byte i) ∧
      (cs.Accounts env array b.byte commit.actualCnt →
        ((freeBlks env.bplmap commit.blk.byte).card : Int) = (freeBlks env.bplmap b.byte).card - cs.referenceCnt) ∧
      (0 < lmapBlks env cs.blk → ∀ i, mapBit recovery.nl.mmAddr i ↔
        if i = cs.blk / env.bplmap then ∃ j < lmapBlks env cs.blk, getBmStatus commit.blk.byte j ≠ .busy else mapBit nl.mmAddr i) := by
  obtain ⟨hbusy, hcnt, hblk⟩ := determine_busy env cs nl
  have hmm : (determineBmlFunc env cs nl).2.2.mmAddr = nl.mmAddr := by
    simp only [determineBmlFunc]
    split_ifs <;> rfl
  rcases hdet : determineBmlFunc env cs nl with ⟨func, cs', nl'⟩
  simp only [hdet] at hbusy hcnt hblk hmm
  simp only [gvcstMapBuild, secShrMapBuild, hdet, loops_eq hbusy, and_self, true_and]
  refine ⟨fun i => gvcstMapLoop_status hbusy array b.byte 0 i, fun h => ?_, fun hpos i => ?_⟩
  · rw [gvcstMapLoop_card hbusy array b.byte 0 h.ascending (fun i hi => h.inside hi) fun hb i hi =>
      h.open_ (hcnt ▸ hbusy.1 hb) hi, h.count, sub_zero]
  · generalize (gvcstMapLoop func cs' array b.byte 0).1 = base
    have hany := bmlFindFree_anyIn base 0 hpos (by omega)
    rw [secShrMasterMap, hblk]
    cases hfind : bmlFindFree 0 base (lmapBlks env cs.blk) with
    | none =>
      rw [hfind] at hany
      simp only [(mapBit_update _ _ _).2, hmm]
      split_ifs with hi
      · exact ⟨fun h => absurd hi h.1, fun ⟨j, hj, hjb⟩ => absurd hjb (hany j hj)⟩
      · simp [hi]
    | some j =>
      rw [hfind] at hany
      simp only [(mapBit_update _ _ _).1, hmm]
      split_ifs with hi
      · exact ⟨fun _ => ⟨j, hany.1, hany.2⟩, fun _ => .inl hi⟩
      · simp [hi]

/-- Two of eight blocks are allocated, where the map itself is the only one in use. -/
theorem secShrMapBuild_eq_two :
    let env : MapEnv := ⟨0, true, false, 8, 8⟩
    let b : BmBlk := ⟨1, fun i => [0x54, 0x55].getD i 0⟩
    let r := secShrMapBuild env [3, 5, 0] b ⟨0, 2, 0⟩ ⟨0, 0, fun _ => 0⟩ 2
    getBmStatus r.blk.byte 3 = .busy ∧ ((freeBlks 8 r.blk.byte).card : Int) = (freeBlks 8 b.byte).card - 2 ∧ mapBit r.nl.mmAddr 0 := by
  intro env b r
  obtain ⟨⟨hblk, -⟩, hstatus, hcard, hmaster⟩ := secShrMapBuild_eq env [3, 5, 0] b ⟨0, 2, 0⟩ ⟨0, 0, fun _ => 0⟩ 2
  have haccounts : MapCse.Accounts ⟨0, 2, 0⟩ env [3, 5, 0] b.byte 2 := by
    have hlisted : ∀ i ∈ listedBlks [3, 5, 0], i < 8 ∧ (getBmStatus b.byte i).open := by decide
    exact ⟨by decide, fun h => (hlisted _ h).1, fun _ h => (hlisted _ h).2, rfl⟩
  have h3 := hstatus 3
  rw [← hblk] at hcard h3
  refine ⟨h3.trans (by decide), hcard haccounts, (hmaster (by decide) 0).2 ?_⟩
  rw [if_pos (by decide)]
  refine ⟨1, by decide, ?_⟩
  rw [hstatus 1]
  decide

end Gtm
