import Gtm.Gds.Realloc
import Gtm.Lemmas.BlkMaps

/-!
# The blocks an element tries

What comes of one block, of the search for one element, and of the searches one after the other.
-/

namespace Gtm

namespace Realloc

open Scan

/-! ## The state of the block -/

theorem and_low {x y k : UInt32} (h : x.toNat % 4 = y.toNat % 4) (hk : k.toNat < 4) : x &&& k = y &&& k := by
  have hand : ∀ z : UInt32, (z &&& k).toNat = z.toNat % 4 &&& k.toNat % 4 := fun z => by
    have hle : (z &&& k).toNat < 2 ^ 2 := (UInt32.toNat_and z k).symm ▸ Nat.lt_of_le_of_lt Nat.and_le_right hk
    rw [← Nat.mod_eq_of_lt hle, UInt32.toNat_and, Nat.and_mod_two_pow]
  rw [← UInt32.toNat_inj, hand, hand, h]

/-- Setting one of the two lowest bits and clearing the other. -/
theorem toNat_setLow (x n : UInt32) : ((x &&& 0xfffffffc) + n).toNat % 4 = n.toNat % 4 := by
  have hmask : (x &&& 0xfffffffc).toNat % 2 ^ 2 = 0 := by
    rw [UInt32.toNat_and, Nat.and_mod_two_pow]
    exact Nat.and_zero _
  rw [UInt32.toNat_add]
  omega

/-- The state that `bm_find_blk` reports is set. -/
theorem priorState_bits (x : UInt32) (used : Bool) :
    wasFree (if used then bitSetRecycledAndClearFree x else bitClearRecycledAndSetFree x) = !used ∧
      wasRecycled (if used then bitSetRecycledAndClearFree x else bitClearRecycledAndSetFree x) = used := by
  have hlow : ∀ n k : UInt32, k.toNat < 4 → ((x &&& 0xfffffffc) + n) &&& k = n &&& k := fun n k hk =>
    and_low (toNat_setLow x n) hk
  cases used with
  | false =>
    simp only [Bool.false_eq_true, if_false, bitClearRecycledAndSetFree, wasFree, wasRecycled]
    rw [hlow 1 1 (by decide), hlow 1 2 (by decide)]
    decide
  | true =>
    simp only [if_true, bitSetRecycledAndClearFree, wasFree, wasRecycled]
    rw [hlow 2 1 (by decide), hlow 2 2 (by decide)]
    decide

variable {env : Env} {bml freeBit : Nat} {used : Bool} {cse cse' : Cse}

/-- Only whether the block was free matters for the before-image. -/
theorem beforeImageNeeded_congr {read : Bool} {x y : UInt32} (h : wasFree x = wasFree y) (blk : Nat) :
    beforeImageNeeded env read x blk = beforeImageNeeded env read y blk := by
  simp only [beforeImageNeeded, h]

theorem beforeImageNeeded_set (env : Env) (read : Bool) (x : UInt32) (used : Bool) (blk : Nat) :
    beforeImageNeeded env read (if used then bitSetRecycledAndClearFree x else bitClearRecycledAndSetFree x) blk =
      beforeImageNeeded env read (if used then 2 else 1) blk := by
  refine beforeImageNeeded_congr ?_ blk
  rw [(priorState_bits x used).1]
  cases used <;> decide

/-! ## One block -/

/-- The elements have the same before-image. -/
structure SameImage (cse cse' : Cse) : Prop where
  oldBlock : cse'.oldBlock = cse.oldBlock
  cr : cse'.cr = cse.cr
  cycle : cse'.cycle = cse.cycle
  tn : cse'.tn = cse.tn

/-- What a block that is taken is. -/
structure TakenAs (env : Env) (bml freeBit : Nat) (used : Bool) (cse cse' : Cse) : Prop where
  mode : cse'.mode = cse.mode
  blk : cse'.blk = bml + freeBit
  inside : bml + freeBit < env.totalBlks
  free : wasFree cse'.blkPriorState = !used
  recycled : wasRecycled cse'.blkPriorState = used
  atHand : AtHand env (fun i => mustRepoint env cse i = false) (bml + freeBit) used

/-- What becomes of the element when a block is passed over. -/
structure PassedOver (env : Env) (bml freeBit : Nat) (cse cse' : Cse) : Prop where
  mode : cse'.mode = cse.mode
  image : SameImage cse cse' ∨ ∃ i, cse'.cr = some i ∧ (env.cr i).blk = bml + freeBit

/-- All that can come of a block. -/
theorem tryBlk_cases {out : Try} (h : tryBlk env bml freeBit used cse = out) :
    ∃ state, wasFree state = !used ∧ wasRecycled state = used ∧ let cse₁ := { cse with blk := bml + freeBit, blkPriorState := state }
      let needed := beforeImageNeeded env (readBeforeImage env) (if used then 2 else 1) (bml + freeBit)
      (env.totalBlks ≤ bml + freeBit ∧ ∃ cse', out = .failed cse' .lostbmlcr) ∨
      bml + freeBit < env.totalBlks ∧ ((needed = false ∧ out = .taken { cse₁ with oldBlock := none, blkChecksum := 0 }) ∨
        (env.isMm = false ∧ out = .skipped cse₁) ∨
        (env.isMm = false ∧ ∃ i, env.dbCshGet (bml + freeBit) = some i ∧ (env.cr i).readInProgress < 0 ∧
          ((mustRepoint env cse i = false ∧ out = .taken cse₁) ∨
          (SizeOk env used i ∧ ∃ cse', out = .taken cse' ∧ cse'.mode = cse.mode ∧ cse'.blk = bml + freeBit ∧ cse'.blkPriorState = state) ∨
          ∃ cse', out = .skipped cse' ∧ cse'.mode = cse.mode ∧ cse'.cr = some i)) ∨
        (env.isMm = true ∧ ((∃ cse' detail, out = .failed cse' (.rdfail detail)) ∨
          ∃ r cse', env.tQread (bml + freeBit) = .ok r ∧ out = .taken cse' ∧ cse'.mode = cse.mode ∧ cse'.blk = bml + freeBit ∧
            cse'.blkPriorState = state))) := by
  obtain ⟨hfree, hrec⟩ := priorState_bits cse.blkPriorState used
  have hneed := beforeImageNeeded_set env (readBeforeImage env) cse.blkPriorState used (bml + freeBit)
  simp only [tryBlk] at h
  generalize (if used then bitSetRecycledAndClearFree cse.blkPriorState else bitClearRecycledAndSetFree cse.blkPriorState) = state at *
  refine ⟨state, hfree, hrec, ?_⟩
  intro cse₁ needed
  have hmust : ∀ i, mustRepoint env { cse with blk := bml + freeBit, blkPriorState := state } i = mustRepoint env cse i := fun _ => rfl
  by_cases hout : bml + freeBit ≥ env.totalBlks
  · rw [if_pos hout] at h
    exact .inl ⟨hout, _, h.symm⟩
  · rw [if_neg hout, hneed] at h
    refine .inr ⟨by omega, ?_⟩
    by_cases hno : needed = false
    · rw [if_pos hno] at h
      exact .inl ⟨hno, h.symm⟩
    · rw [if_neg hno] at h
      refine .inr ?_
      by_cases hmm : env.isMm = false
      · rw [if_pos hmm] at h
        cases hget : env.dbCshGet (bml + freeBit) with
        | none =>
          simp only [hget] at h
          exact .inl ⟨hmm, h.symm⟩
        | some i =>
          simp only [hget] at h
          by_cases hread : 0 ≤ (env.cr i).readInProgress
          · rw [if_pos hread] at h
            exact .inl ⟨hmm, h.symm⟩
          · rw [if_neg hread, hmust] at h
            refine .inr (.inl ⟨hmm, i, rfl, by omega, ?_⟩)
            by_cases hrep : mustRepoint env cse i = true
            · rw [if_pos hrep] at h
              refine .inr ?_
              cases hjbp : env.jbp with
              | none =>
                simp only [hjbp] at h
                exact .inl ⟨fun _ he => absurd (hjbp.symm.trans he) (by simp), _, h.symm, rfl, rfl, rfl⟩
              | some epochTn =>
                have hsize : (used = true → (env.cr i).hdr.tn < epochTn → (env.cr i).hdr.bsiz ≤ env.blkSize) → SizeOk env used i :=
                  fun hok e he => by
                    obtain rfl := Option.some.inj (hjbp.symm.trans he)
                    exact hok
                simp only [hjbp, hfree] at h
                split_ifs at h with hwas htn hbsiz
                · refine .inl ⟨hsize fun hu => ?_, _, h.symm, rfl, rfl, rfl⟩
                  rw [hu] at hwas
                  exact absurd hwas (by simp)
                · exact .inr ⟨_, h.symm, rfl, rfl⟩
                · exact .inl ⟨hsize fun _ _ => by omega, _, h.symm, rfl, rfl, rfl⟩
                · exact .inl ⟨hsize fun _ hlt => absurd hlt htn, _, h.symm, rfl, rfl, rfl⟩
            · rw [if_neg hrep] at h
              exact .inl ⟨by simpa using hrep, h.symm⟩
      · rw [if_neg hmm] at h
        refine .inr (.inr ⟨by simpa using hmm, ?_⟩)
        cases hread : env.tQread (bml + freeBit) with
        | error detail =>
          simp only [hread] at h
          exact .inl ⟨_, _, h.symm⟩
        | ok r =>
          simp only [hread] at h
          exact .inr ⟨_, _, rfl, h.symm, rfl, rfl, rfl⟩

theorem tryBlk_taken (h : tryBlk env bml freeBit used cse = .taken cse') : TakenAs env bml freeBit used cse cse' := by
  obtain ⟨state, hfree, hrec, ⟨-, _, hout⟩ | ⟨hin, hcases⟩⟩ := tryBlk_cases h
  · exact absurd hout (by simp)
  · rcases hcases with ⟨hno, hout⟩ | ⟨-, hout⟩ | ⟨hmm, i, hget, hread, hrest⟩ | ⟨hmm, ⟨_, _, hout⟩ | ⟨r, _, hr, hout, hmode, hblk, hstate⟩⟩
    · obtain rfl := Try.taken.inj hout
      exact ⟨rfl, rfl, hin, hfree, hrec, fun hyes => absurd (hno.symm.trans hyes) (by simp)⟩
    · exact absurd hout (by simp)
    · have hhere : (SizeOk env used i ∨ mustRepoint env cse i = false) →
          AtHand env (fun i => mustRepoint env cse i = false) (bml + freeBit) used := fun hok _ => by
        rw [if_neg (by simp [hmm])]
        exact ⟨i, hget, hread, hok⟩
      rcases hrest with ⟨hheld, hout⟩ | ⟨hsize, _, hout, hmode, hblk, hstate⟩ | ⟨_, hout, -⟩
      · obtain rfl := Try.taken.inj hout
        exact ⟨rfl, rfl, hin, hfree, hrec, hhere (.inr hheld)⟩
      · obtain rfl := Try.taken.inj hout
        exact ⟨hmode, hblk, hin, by rw [hstate, hfree], by rw [hstate, hrec], hhere (.inl hsize)⟩
      · exact absurd hout (by simp)
    · exact absurd hout (by simp)
    · obtain rfl := Try.taken.inj hout
      refine ⟨hmode, hblk, hin, by rw [hstate, hfree], by rw [hstate, hrec], fun _ => ?_⟩
      rw [if_pos hmm]
      exact ⟨r, hr⟩

theorem tryBlk_skipped (h : tryBlk env bml freeBit used cse = .skipped cse') : PassedOver env bml freeBit cse cse' := by
  obtain ⟨state, -, -, ⟨-, _, hout⟩ | ⟨-, hcases⟩⟩ := tryBlk_cases h
  · exact absurd hout (by simp)
  · rcases hcases with ⟨-, hout⟩ | ⟨-, hout⟩ | ⟨-, i, hget, -, ⟨-, hout⟩ | ⟨-, _, hout, -⟩ | ⟨_, hout, hmode, hcr⟩⟩ |
      ⟨-, ⟨_, _, hout⟩ | ⟨_, _, -, hout, -⟩⟩
    · exact absurd hout (by simp)
    · obtain rfl := Try.skipped.inj hout
      exact ⟨rfl, .inl ⟨rfl, rfl, rfl, rfl⟩⟩
    · exact absurd hout (by simp)
    · exact absurd hout (by simp)
    · obtain rfl := Try.skipped.inj hout
      exact ⟨hmode, .inr ⟨i, hcr, env.dbCshGet_blk hget⟩⟩
    · exact absurd hout (by simp)
    · exact absurd hout (by simp)

theorem tryBlk_failed {status : Sc} (h : tryBlk env bml freeBit used cse = .failed cse' status) : status ≠ .normal := by
  obtain ⟨state, -, -, ⟨-, _, hout⟩ | ⟨-, hcases⟩⟩ := tryBlk_cases h
  · rw [(Try.failed.inj hout).2]
    simp
  · rcases hcases with ⟨-, hout⟩ | ⟨-, hout⟩ | ⟨-, i, -, -, ⟨-, hout⟩ | ⟨-, _, hout, -⟩ | ⟨_, hout, -⟩⟩ |
      ⟨-, ⟨_, _, hout⟩ | ⟨_, _, -, hout, -⟩⟩
    · exact absurd hout (by simp)
    · exact absurd hout (by simp)
    · exact absurd hout (by simp)
    · exact absurd hout (by simp)
    · exact absurd hout (by simp)
    · rw [(Try.failed.inj hout).2]
      simp
    · exact absurd hout (by simp)

/-! ## One element -/

section Search

variable {env : Env} {bml : Nat} {base : Nat → UInt8} {offset b : Nat} {cse cse' : Cse} {skipped : List Nat}

/-- The bitmap has only the states of a block in it. -/
def WfMap (env : Env) (bml : Nat) (base : Nat → UInt8) : Prop := ∀ i < mapSize env bml, getBmStatus base i ≠ .mapInvalid

/-- The loop comes to an end, and what it has done is a search. -/
theorem findFor_search (hwf : WfMap env bml base) (fuel : Nat) {offset : Nat} (hfuel : mapSize env bml - offset < fuel) (cse : Cse) :
    ∃ f, findFor env bml (mapSize env bml) base fuel offset cse = some f ∧ match f.result with
      | .error status => status ≠ .normal
      | .ok b => ∃ skipped, Search env bml base offset cse skipped f.cse b := by
  induction fuel generalizing offset cse with
  | zero => omega
  | succ fuel ih =>
    rw [findFor]
    by_cases hlt : offset ≥ mapSize env bml
    · rw [if_pos hlt]
      exact ⟨_, rfl, by simp⟩
    · rw [if_neg hlt]
      cases hfind : bmFindBlk offset base (mapSize env bml) with
      | none => exact ⟨_, rfl, by simp⟩
      | some r =>
        obtain ⟨freeBit, used⟩ := r
        have hlt' : offset < mapSize env bml := by omega
        have hfirst := (bmFindBlk_foundIn hwf hlt').first
        rw [hfind] at hfirst
        simp only
        cases htry : tryBlk env bml freeBit used cse with
        | taken cse' => exact ⟨_, rfl, [], .taken (by omega) hfind htry⟩
        | failed cse' status => exact ⟨_, rfl, tryBlk_failed htry⟩
        | skipped cse' =>
          have hle : offset ≤ freeBit := hfirst.1
          obtain ⟨f, hf, hres⟩ := ih (show mapSize env bml - (freeBit + 1) < fuel by omega) cse'
          refine ⟨f, hf, ?_⟩
          cases hr : f.result with
          | error status =>
            rw [hr] at hres
            exact hres
          | ok b =>
            rw [hr] at hres
            obtain ⟨skipped, hsearch⟩ := hres
            exact ⟨freeBit :: skipped, .skipped (by omega) hfind htry hsearch⟩

/-- The before-image of an element on the way is the one it had, or that of a block which has been passed over. -/
def ImageFrom (env : Env) (bml offset : Nat) (cse cse' : Cse) : Prop :=
  SameImage cse cse' ∨ ∃ i, cse'.cr = some i ∧ (env.cr i).blk < bml + offset

theorem AtHand.mono {held held' : Nat → Prop} {blk : Nat} {used : Bool} (h : AtHand env held blk used)
    (himp : ∀ i, (env.cr i).blk = blk → held i → held' i) : AtHand env held' blk used := by
  intro hneed
  have hat := h hneed
  split_ifs at hat ⊢
  · exact hat
  · obtain ⟨i, hget, hread, hok⟩ := hat
    exact ⟨i, hget, hread, hok.imp_right (himp i (env.dbCshGet_blk hget))⟩

/-- An element that holds the before-image of a block from here on has held it before. -/
theorem ImageFrom.held {cse₀ : Cse} {i : Nat} (h : ImageFrom env bml offset cse₀ cse) (hblk : bml + offset ≤ (env.cr i).blk)
    (hheld : mustRepoint env cse i = false) : mustRepoint env cse₀ i = false := by
  rcases h with hsame | ⟨j, hj, hlt⟩
  · simpa only [mustRepoint, hsame.oldBlock, hsame.cr, hsame.cycle, hsame.tn] using hheld
  · have hcr : cse.cr = some i := by
      simp only [mustRepoint, Bool.or_eq_false_iff, decide_eq_false_iff_not, not_not] at hheld
      exact hheld.1.1.2
    obtain rfl := Option.some.inj (hj.symm.trans hcr)
    omega

theorem ImageFrom.step {cse₀ : Cse} (h : ImageFrom env bml offset cse₀ cse) (hover : PassedOver env bml b cse cse') (hb : offset ≤ b) :
    ImageFrom env bml (b + 1) cse₀ cse' := by
  rcases hover.image with hsame | ⟨i, hi, hblk⟩
  · rcases h with hsame₀ | ⟨i, hi, hlt⟩
    · exact .inl ⟨hsame.oldBlock.trans hsame₀.oldBlock, hsame.cr.trans hsame₀.cr, hsame.cycle.trans hsame₀.cycle,
        hsame.tn.trans hsame₀.tn⟩
    · exact .inr ⟨i, hsame.cr.trans hi, by omega⟩
  · exact .inr ⟨i, hi, by omega⟩

/-- What an element has behind the search. -/
structure Given (env : Env) (bml : Nat) (base : Nat → UInt8) (cse₀ cse' : Cse) (b : Nat) : Prop where
  mode : cse'.mode = cse₀.mode
  blk : cse'.blk = bml + b
  inMap : b < mapSize env bml
  inside : bml + b < env.totalBlks
  notBusy : getBmStatus base b ≠ .busy
  free : wasFree cse'.blkPriorState = true ↔ getBmStatus base b = .free
  recycled : wasRecycled cse'.blkPriorState = true ↔ getBmStatus base b = .recycled
  atHand : AtHand env (fun i => mustRepoint env cse₀ i = false) (bml + b) (decide (getBmStatus base b = .recycled))

/-- The blocks that are passed over are in front of the one the element has. -/
theorem Search.spec {cse₀ : Cse} (hwf : WfMap env bml base) (h : Search env bml base offset cse skipped cse' b)
    (hmode : cse.mode = cse₀.mode) (himage : ImageFrom env bml offset cse₀ cse) :
    Given env bml base cse₀ cse' b ∧ offset ≤ b ∧ ∀ s ∈ skipped, offset ≤ s ∧ s < b := by
  induction h with
  | @taken offset b used cse cse' hlt hfind htry =>
    obtain ⟨hfirst, hused⟩ := bmFindBlk_foundIn hwf hlt
    rw [hfind] at hfirst
    have htaken := tryBlk_taken htry
    have hrec : used = true ↔ getBmStatus base b = .recycled := hused hfind
    have hdec : decide (getBmStatus base b = .recycled) = used := by
      rw [← decide_eq_decide.2 hrec]
      exact Bool.decide_coe used
    have hvalid := hwf b hfirst.2.1
    have hopen : getBmStatus base b ≠ .busy := hfirst.2.2.1
    refine ⟨⟨htaken.mode.trans hmode, htaken.blk, hfirst.2.1, htaken.inside, hopen, ?_, ?_, ?_⟩, hfirst.1, by simp⟩
    · rw [htaken.free]
      cases used <;> cases hst : getBmStatus base b <;> simp_all
    · rw [htaken.recycled, hrec]
    · rw [hdec]
      exact htaken.atHand.mono fun i hblk hheld => himage.held (hblk ▸ Nat.add_le_add_left hfirst.1 bml) hheld
  | @skipped offset s b used cse cse₁ cse' skipped hlt hfind htry hrest ih =>
    obtain ⟨hfirst, -⟩ := bmFindBlk_foundIn hwf hlt
    rw [hfind] at hfirst
    have hover := tryBlk_skipped htry
    obtain ⟨hgiven, hle, hall⟩ := ih (hover.mode.trans hmode) (himage.step hover hfirst.1)
    have hs : offset ≤ s := hfirst.1
    refine ⟨hgiven, by omega, fun t ht => ?_⟩
    rcases List.mem_cons.1 ht with rfl | ht
    · exact ⟨hs, by omega⟩
    · have := hall t ht
      exact ⟨by omega, this.2⟩

end Search

end Realloc

end Gtm

/-!
## Blocks chosen again

When `reallocate_bitmap` succeeds, the elements that acquire blocks of the bitmap have different ones, none of them busy, in ascending
order, and the update array lists them. No block is handed out that has been passed over, and it does not succeed when there are not
enough blocks.
-/

namespace Gtm

namespace Realloc

variable {env : Env} {bml : Nat} {base : Nat → UInt8}

/-- The loop comes to an end; when it succeeds, it has assigned blocks, and written them to the update array. -/
theorem reallocLoop_assigned (hwf : WfMap env bml base) (cses : List Cse) (offset ptr : Nat) (updAddr : List Nat) :
    ∃ out, reallocLoop env bml (mapSize env bml) base cses offset ptr updAddr = some out ∧
      (out.status = .normal → ∃ skipped given, Assigned env bml base offset cses skipped given out.cses ∧
        (ptr + given.length ≤ updAddr.length → out.updAddr = updAddr.take ptr ++ given ++ updAddr.drop (ptr + given.length))) := by
  induction cses generalizing offset ptr updAddr with
  | nil => exact ⟨_, rfl, fun _ => ⟨[], [], .nil offset, fun _ => by simp⟩⟩
  | cons cse cses ih =>
    rw [reallocLoop]
    by_cases hof : ofBitmap bml cse = false
    · rw [if_pos hof]
      obtain ⟨out, heq, hout⟩ := ih offset ptr updAddr
      rw [heq]
      refine ⟨_, rfl, fun hnormal => ?_⟩
      obtain ⟨skipped, given, hassigned, hupd⟩ := hout hnormal
      exact ⟨skipped, given, .other hof hassigned, hupd⟩
    · rw [if_neg hof]
      obtain ⟨f, hf, hres⟩ := findFor_search hwf (mapSize env bml + 1) (show mapSize env bml - offset < _ by omega) cse
      rw [hf, Option.bind_some]
      cases hr : f.result with
      | error status =>
        rw [hr] at hres
        exact ⟨_, rfl, fun hnormal => absurd hnormal hres⟩
      | ok b =>
        rw [hr] at hres
        obtain ⟨skipped, hsearch⟩ := hres
        obtain ⟨out, heq, hout⟩ := ih (b + 1) (ptr + 1) (updAddr.set ptr b)
        simp only [heq]
        refine ⟨_, rfl, fun hnormal => ?_⟩
        obtain ⟨skipped', given, hassigned, hupd⟩ := hout hnormal
        refine ⟨skipped ++ skipped', b :: given, .next (by simpa using hof) hsearch hassigned, fun hlen => ?_⟩
        rw [List.length_cons] at hlen
        have hlt : ptr < updAddr.length := by omega
        have htake : (updAddr.set ptr b).take (ptr + 1) = updAddr.take ptr ++ [b] := by
          rw [List.take_add_one, List.take_set_of_le (Nat.le_refl ptr), List.getElem?_set_self hlt]
          rfl
        rw [hupd (by rw [List.length_set]; omega), htake, List.drop_set_of_lt (by omega), List.length_cons, List.append_assoc _ [b],
          show ptr + 1 + given.length = ptr + (given.length + 1) by omega]
        rfl

theorem mapSize_le (env : Env) (bml : Nat) : mapSize env bml ≤ blksPerLmap := by
  rw [mapSize]
  split_ifs with h
  · have := Nat.lt_div_mul_add (a := env.totalBlks) (b := blksPerLmap) (by decide)
    omega
  · exact Nat.le_refl _

/-- What a run of the searches hands out. -/
structure Handed (env : Env) (bml : Nat) (base : Nat → UInt8) (offset : Nat) (cses : List Cse) (skipped given : List Nat)
    (out : List Cse) : Prop where
  sorted : given.Pairwise (· < ·)
  from_offset : ∀ b, b ∈ given ∨ b ∈ skipped → offset ≤ b
  apart : ∀ b ∈ skipped, b ∉ given
  blks : acquiredBlks bml out = given.map (bml + ·)
  count : given.length = (acquiredBlks bml cses).length
  elems : ∀ cse ∈ out, ofBitmap bml cse = true → ∃ cse₀, Given env bml base cse₀ cse (cse.blk - bml)
  given : ∀ b ∈ given, ∃ cse₀ ∈ cses, ofBitmap bml cse₀ = true ∧ ∃ cse, Given env bml base cse₀ cse b
  others : out.filter (fun cse => !ofBitmap bml cse) = cses.filter fun cse => !ofBitmap bml cse

/-- An element with a block of the bitmap is one of the bitmap. -/
theorem Given.ofBitmap {cse₀ cse : Cse} {b : Nat} (h : Given env bml base cse₀ cse b) (hbml : blksPerLmap ∣ bml)
    (hof : ofBitmap bml cse₀ = true) : ofBitmap bml cse = true := by
  have hlt := h.inMap.trans_le (mapSize_le env bml)
  simp only [Realloc.ofBitmap, h.mode, h.blk, Bool.and_eq_true, decide_eq_true_eq] at hof ⊢
  refine ⟨hof.1, ?_⟩
  rw [Nat.add_comm, Nat.add_div_of_dvd_left hbml, Nat.div_eq_of_lt hlt, Nat.zero_add, Nat.div_mul_cancel hbml]

theorem Assigned.handed {offset : Nat} {cses out : List Cse} {skipped given : List Nat} (hwf : WfMap env bml base)
    (hbml : blksPerLmap ∣ bml) (h : Assigned env bml base offset cses skipped given out) :
    Handed env bml base offset cses skipped given out := by
  induction h with
  | nil offset => exact ⟨.nil, by simp, by simp, rfl, rfl, by simp, by simp, rfl⟩
  | @other offset cse cses out skipped given hother hrest ih =>
    refine ⟨ih.sorted, ih.from_offset, ih.apart, ?_, ?_, fun c hc hof => ?_, fun b hb => ?_, ?_⟩
    · rw [← ih.blks, acquiredBlks, List.filter_cons_of_neg (by simp [hother])]
      rfl
    · rw [ih.count, acquiredBlks, acquiredBlks, List.filter_cons_of_neg (by simp [hother])]
    · rcases List.mem_cons.1 hc with rfl | hc
      · exact absurd (hother.symm.trans hof) (by simp)
      · exact ih.elems c hc hof
    · obtain ⟨c, hc, hrest⟩ := ih.given b hb
      exact ⟨c, List.mem_cons_of_mem _ hc, hrest⟩
    · rw [List.filter_cons_of_pos (by simp [hother]), List.filter_cons_of_pos (by simp [hother]), ih.others]
  | @next offset b cse cse' cses out skipped skipped' given hof hsearch hrest ih =>
    obtain ⟨hgiven, hle, hskip⟩ := hsearch.spec hwf rfl (.inl ⟨rfl, rfl, rfl, rfl⟩)
    have hof' := hgiven.ofBitmap hbml hof
    have hblk : cse'.blk - bml = b := by rw [hgiven.blk, Nat.add_sub_cancel_left]
    refine ⟨List.pairwise_cons.2 ⟨fun x hx => ih.from_offset x (.inl hx), ih.sorted⟩, fun x hx => ?_, fun x hx hx' => ?_, ?_, ?_,
      fun c hc hof => ?_, fun x hx => ?_, ?_⟩
    · rw [List.mem_cons, List.mem_append] at hx
      rcases hx with (rfl | hx) | hx | hx
      · exact hle
      · have := ih.from_offset x (.inl hx)
        omega
      · exact (hskip x hx).1
      · have := ih.from_offset x (.inr hx)
        omega
    · rcases List.mem_append.1 hx with hx | hx <;> rcases List.mem_cons.1 hx' with rfl | hx'
      · exact absurd (hskip x hx).2 (Nat.lt_irrefl x)
      · have h1 := (hskip x hx).2
        have h2 := ih.from_offset x (.inl hx')
        omega
      · have := ih.from_offset x (.inr hx)
        omega
      · exact ih.apart x hx hx'
    · rw [acquiredBlks, List.filter_cons_of_pos hof', List.map_cons, List.map_cons, hgiven.blk, ← ih.blks]
      rfl
    · rw [List.length_cons, ih.count, acquiredBlks, acquiredBlks, List.filter_cons_of_pos hof]
      rfl
    · rcases List.mem_cons.1 hc with rfl | hc
      · exact ⟨cse, hblk.symm ▸ hgiven⟩
      · exact ih.elems c hc hof
    · rcases List.mem_cons.1 hx with rfl | hx
      · exact ⟨cse, List.mem_cons_self, hof, cse', hgiven⟩
      · obtain ⟨c, hc, hrest⟩ := ih.given x hx
        exact ⟨c, List.mem_cons_of_mem _ hc, hrest⟩
    · rw [List.filter_cons_of_neg (by simp [hof']), List.filter_cons_of_neg (by simp [hof]), ih.others]

/-- The function comes to an end as the loop does, and when it succeeds so has the loop. -/
theorem reallocateBitmap_loop {cses : List Cse} {bmlCse : BmlCse} {l : LoopOut}
    (hloop : reallocLoop env bmlCse.blk (mapSize env bmlCse.blk) bmlCse.base cses 0 0 bmlCse.updAddr = some l) :
    ∃ out, reallocateBitmap env cses bmlCse = some out ∧
      (out.status = .normal → l.status = .normal ∧ out.cses = l.cses ∧ out.bml.updAddr = l.updAddr) := by
  rw [reallocateBitmap]
  by_cases hlost : env.isMm = false ∧ (env.cr bmlCse.cr).inTend = true
  · rw [if_pos hlost]
    exact ⟨_, rfl, nofun⟩
  · rw [if_neg hlost, hloop, Option.map_some]
    refine ⟨_, rfl, fun hnormal => ?_⟩
    by_cases hstatus : l.status = .normal
    · simp only [hstatus, ne_eq, not_true, if_false] at hnormal ⊢
      cases hjbp : env.jbp with
      | none => exact ⟨trivial, rfl, rfl⟩
      | some epochTn =>
        simp only [hjbp] at hnormal ⊢
        by_cases htn : bmlCse.hdr.tn < epochTn
        · simp only [if_pos htn] at hnormal ⊢
          by_cases hsize : bmlCse.hdr.bsiz > env.blkSize
          · rw [if_pos hsize] at hnormal
            exact absurd hnormal (by simp)
          · rw [if_neg hsize]
            exact ⟨trivial, rfl, rfl⟩
        · rw [if_neg htn]
          exact ⟨trivial, rfl, rfl⟩
    · rw [if_pos hstatus] at hnormal
      exact absurd hnormal hstatus

/-- No more blocks are handed out than can be used. -/
theorem Handed.length_le {cses out : List Cse} {skipped given : List Nat} (h : Handed env bml base 0 cses skipped given out) :
    given.length ≤ {b | Usable env bml base (cses.filter (ofBitmap bml)) b}.ncard := by
  have hnodup : given.Nodup := h.sorted.imp fun hlt => Nat.ne_of_lt hlt
  have hsub : (given.toFinset : Set Nat) ⊆ {b | Usable env bml base (cses.filter (ofBitmap bml)) b} := fun b hb => by
    obtain ⟨cse₀, hmem, hof, cse, hgiven⟩ := h.given b (by simpa using hb)
    exact ⟨hgiven.inMap, hgiven.notBusy, hgiven.atHand.mono fun _ _ hheld => ⟨cse₀, List.mem_filter.2 ⟨hmem, hof⟩, hheld⟩⟩
  have hfin : {b | Usable env bml base (cses.filter (ofBitmap bml)) b}.Finite :=
    (Set.finite_lt_nat (mapSize env bml)).subset fun b hb => hb.1
  have hle := Set.ncard_le_ncard hsub hfin
  rwa [Set.ncard_coe_finset, List.toFinset_card_of_nodup hnodup] at hle

end Realloc

open Realloc

/-- `reallocate_bitmap` always returns. When it returns normally, the elements that acquire blocks of the bitmap have as many blocks of
it in ascending order, none behind the end of the database and none that is busy; the update array lists them; each element has the
state of its block; no block that was passed over is among them; there are as many blocks that can be used; and the other elements are
as before. -/
theorem reallocateBitmap_normal {env : Env} {cses : List Cse} {bmlCse : BmlCse} {rest : List Nat} (hbml : blksPerLmap ∣ bmlCse.blk)
    (hwf : WfMap env bmlCse.blk bmlCse.base)
    (hlist : bmlCse.updAddr = (acquiredBlks bmlCse.blk cses).map (· - bmlCse.blk) ++ 0 :: rest) :
    ∃ out, reallocateBitmap env cses bmlCse = some out ∧ (out.status = .normal →
      (acquiredBlks bmlCse.blk out.cses).Pairwise (· < ·) ∧
      (acquiredBlks bmlCse.blk out.cses).length = (acquiredBlks bmlCse.blk cses).length ∧
      (∀ blk ∈ acquiredBlks bmlCse.blk out.cses, bmlCse.blk ≤ blk ∧ blk < bmlCse.blk + blksPerLmap ∧ blk < env.totalBlks ∧
        getBmStatus bmlCse.base (blk - bmlCse.blk) ≠ .busy) ∧
      out.bml.updAddr = (acquiredBlks bmlCse.blk out.cses).map (· - bmlCse.blk) ++ 0 :: rest ∧
      (∀ cse ∈ out.cses, ofBitmap bmlCse.blk cse = true →
        (wasFree cse.blkPriorState = true ↔ getBmStatus bmlCse.base (cse.blk - bmlCse.blk) = .free) ∧
        (wasRecycled cse.blkPriorState = true ↔ getBmStatus bmlCse.base (cse.blk - bmlCse.blk) = .recycled)) ∧
      (∃ skipped given, Assigned env bmlCse.blk bmlCse.base 0 cses skipped given out.cses ∧
        acquiredBlks bmlCse.blk out.cses = given.map (bmlCse.blk + ·) ∧ ∀ b ∈ skipped, b ∉ given) ∧
      (acquiredBlks bmlCse.blk cses).length ≤
        {b | Usable env bmlCse.blk bmlCse.base (cses.filter (ofBitmap bmlCse.blk)) b}.ncard ∧
      out.cses.filter (fun cse => !ofBitmap bmlCse.blk cse) = cses.filter fun cse => !ofBitmap bmlCse.blk cse) := by
  obtain ⟨l, hl, hassign⟩ := reallocLoop_assigned hwf cses 0 0 bmlCse.updAddr
  obtain ⟨out, heq, hout⟩ := reallocateBitmap_loop hl
  refine ⟨out, heq, fun hnormal => ?_⟩
  obtain ⟨hstatus, hcses, hupd⟩ := hout hnormal
  obtain ⟨skipped, given, hassigned, hwritten⟩ := hassign hstatus
  rw [← hcses] at hassigned
  have hd := hassigned.handed hwf hbml
  have hback : (acquiredBlks bmlCse.blk out.cses).map (· - bmlCse.blk) = given := by
    rw [hd.blks, List.map_map]
    conv_rhs => rw [← List.map_id given]
    exact List.map_congr_left fun b _ => Nat.add_sub_cancel_left bmlCse.blk b
  have hlen : (acquiredBlks bmlCse.blk out.cses).length = given.length := by rw [hd.blks, List.length_map]
  refine ⟨?_, hlen.trans hd.count, fun blk hblk => ?_, ?_, fun cse hmem hof => ?_, ⟨skipped, given, hassigned, hd.blks, hd.apart⟩,
    hd.count ▸ hd.length_le, hd.others⟩
  · rw [hd.blks, List.pairwise_map]
    exact hd.sorted.imp fun hlt => Nat.add_lt_add_left hlt _
  · rw [hd.blks] at hblk
    obtain ⟨b, hb, rfl⟩ := List.mem_map.1 hblk
    obtain ⟨cse₀, -, -, cse, hgiven⟩ := hd.given b hb
    have hlt := hgiven.inMap.trans_le (mapSize_le env bmlCse.blk)
    rw [Nat.add_sub_cancel_left]
    exact ⟨Nat.le_add_right _ _, Nat.add_lt_add_left hlt _, hgiven.inside, hgiven.notBusy⟩
  · have hcount : ((acquiredBlks bmlCse.blk cses).map (· - bmlCse.blk)).length = given.length := by rw [List.length_map, hd.count]
    rw [hback, hupd, hwritten (by rw [hlist, List.length_append, hcount]; omega), hlist, Nat.zero_add, List.take_zero, List.nil_append,
      ← hcount, List.drop_left]
  · obtain ⟨cse₀, hgiven⟩ := hd.elems cse hmem hof
    exact ⟨hgiven.free, hgiven.recycled⟩

/-- A region with before-image journaling, in whose last bitmap are six blocks. The before-image of the third is being read. -/
def sampleEnv : Env where
  isMm := false
  totalBlks := 518
  blkSize := 1024
  currTn := 9
  dbGotToV5Once := true
  jbp := some 1
  backupInProg := false
  snapshotInProg := false
  ssChkShdwBitmap _ := false
  cr i := ⟨512 + i, if i = 2 then 0 else -1, 1, false, 2, 4096 * i, ⟨64, 5⟩⟩
  dbCshGet blk := if 512 ≤ blk then some (blk - 512) else none
  dbCshGet_blk {blk i} h := by
    split_ifs at h with hle
    have := Option.some.inj h
    simp only
    omega
  tQread _ := .error 0
  jnlGetChecksum _ _ := 0

/-- An element that has acquired a block. -/
def sampleCse (blk : Nat) : Cse := ⟨.acquired, blk, 1, none, none, 0, 0, 0⟩

/-- A bitmap in which the third block is recycled, the fourth is busy, the fifth is free and the sixth is recycled. -/
def sampleBml (updAddr : List Nat) : BmlCse := ⟨512, 0, 0, ⟨64, 5⟩, fun i => [0x30, 0x0D].getD i 0x55, updAddr, 0, 2⟩

/-- Two elements that have acquired the third and the fourth block get the fifth and the sixth. -/
theorem reallocateBitmap_normal_sample : ∃ out, reallocateBitmap sampleEnv [sampleCse 514, sampleCse 515] (sampleBml [2, 3, 0]) = some out ∧
    out.status = .normal ∧ out.bml.updAddr = [4, 5, 0] ∧ (acquiredBlks 512 out.cses).Pairwise (· < ·) := by
  have hwf : ∀ i < mapSize sampleEnv 512, getBmStatus (sampleBml [2, 3, 0]).base i ≠ .mapInvalid := by decide
  have hlist : (sampleBml [2, 3, 0]).updAddr = (acquiredBlks 512 [sampleCse 514, sampleCse 515]).map (· - 512) ++ 0 :: [] := by decide
  obtain ⟨out, heq, hout⟩ := reallocateBitmap_normal (show blksPerLmap ∣ (sampleBml [2, 3, 0]).blk by decide) hwf hlist
  have h0 : bmFindBlk 0 (sampleBml [2, 3, 0]).base 6 = some (2, true) := by
    rw [bmFindBlk, if_neg (by decide), bmFindRest]
    decide
  have h3 : bmFindBlk 3 (sampleBml [2, 3, 0]).base 6 = some (4, false) := by
    simp only [bmFindBlk]
    rw [if_pos (by decide), bmFindRest]
    decide
  have h5 : bmFindBlk 5 (sampleBml [2, 3, 0]).base 6 = some (5, true) := by
    simp only [bmFindBlk]
    rw [if_pos (by decide), bmFindRest]
    decide
  have hskip : tryBlk sampleEnv 512 2 true (sampleCse 514) = .skipped { sampleCse 514 with blkPriorState := 2 } := rfl
  have hfree : tryBlk sampleEnv 512 4 false { sampleCse 514 with blkPriorState := 2 } = .taken (sampleCse 516) := rfl
  have hused : tryBlk sampleEnv 512 5 true (sampleCse 515) = .taken ⟨.acquired, 517, 2, some 20480, some 5, 1, 0, 0⟩ := rfl
  have hfirst : findFor sampleEnv 512 6 (sampleBml [2, 3, 0]).base 7 0 (sampleCse 514) = some ⟨sampleCse 516, .ok 4⟩ := by
    rw [findFor, if_neg (by decide), h0]
    simp only [hskip]
    rw [findFor, if_neg (by decide), h3]
    simp only [hfree]
  have hsecond : findFor sampleEnv 512 6 (sampleBml [2, 3, 0]).base 7 5 (sampleCse 515) =
      some ⟨⟨.acquired, 517, 2, some 20480, some 5, 1, 0, 0⟩, .ok 5⟩ := by
    rw [findFor, if_neg (by decide), h5]
    simp only [hused]
  have hrun : reallocLoop sampleEnv 512 6 (sampleBml [2, 3, 0]).base [sampleCse 514, sampleCse 515] 0 0 [2, 3, 0] =
      some ⟨.normal, [sampleCse 516, ⟨.acquired, 517, 2, some 20480, some 5, 1, 0, 0⟩], [4, 5, 0]⟩ := by
    rw [reallocLoop, if_neg (by decide), hfirst, Option.bind_some]
    simp only
    rw [reallocLoop, if_neg (by decide), hsecond]
    rfl
  have hreturn : reallocateBitmap sampleEnv [sampleCse 514, sampleCse 515] (sampleBml [2, 3, 0]) =
      some ⟨.normal, [sampleCse 516, ⟨.acquired, 517, 2, some 20480, some 5, 1, 0, 0⟩], sampleBml [4, 5, 0]⟩ := by
    have hsize : mapSize sampleEnv 512 = 6 := by decide
    rw [reallocateBitmap, if_neg (by decide)]
    change (reallocLoop sampleEnv 512 (mapSize sampleEnv 512) (sampleBml [2, 3, 0]).base _ 0 0 [2, 3, 0]).map _ = _
    rw [hsize, hrun]
    rfl
  obtain rfl := Option.some.inj (hreturn.symm.trans heq)
  exact ⟨_, heq, rfl, rfl, (hout rfl).1⟩

end Gtm
