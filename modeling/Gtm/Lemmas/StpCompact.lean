import Gtm.Stp.Gcol

/-!
# Compaction of the string pool

The strings are taken in the order of their addresses, so a contiguous block ends before the next one begins, and what is moved
down never reaches a string that has not been moved yet. The space added up beforehand covers what the blocks take.
-/

namespace Gtm

/-- Standing on a word boundary, when strings are aligned. -/
def Aligned (align : Bool) (x : Nat) : Prop := align = true → x % nativeWsize = 0

/-- Two strings have a byte in common. -/
def Mstr.Overlap (m n : Mstr) : Prop := m.addr < n.addr + n.len ∧ n.addr < m.addr + m.len

/-- The live strings of a pool: each of them listed once, not empty and inside `[base, free)`. -/
structure LiveIn (align : Bool) (mstrs : Nat → Mstr) (base free : Nat) (live : List Nat) : Prop where
  nodup : live.Nodup
  pos : ∀ i ∈ live, 0 < (mstrs i).len
  lo : ∀ i ∈ live, base ≤ (mstrs i).addr
  hi : ∀ i ∈ live, (mstrs i).addr + (mstrs i).len ≤ free
  aligned : ∀ i ∈ live, Aligned align (mstrs i).addr

namespace StpCompactAux

/-! ### The space taken -/

/-- The block from `B` to `E`, placed at `D`, ends inside the first `tot` bytes of the pool. -/
structure Fits (align : Bool) (base D B E tot : Nat) : Prop where
  le : B ≤ E
  aligned_base : Aligned align base
  aligned_D : Aligned align D
  aligned_B : Aligned align B
  aligned_tot : Aligned align tot
  fits : D + alignUp align (E - B) ≤ base + tot

/-- The end of the block after one more string. -/
def maxEnd (E : Nat) (m : Mstr) : Nat := if E < m.addr + m.len then m.addr + m.len else E

/-- One more string of the block: counted and placed. -/
theorem Fits.step {align : Bool} {base D B E tot pad : Nat} (h : Fits align base D B E tot) {m : Mstr} (hB : B ≤ m.addr)
    (hal : Aligned align m.addr) (hpad : pad < nativeWsize ∧ (align = false → pad = 0)) (hin : m.addr ≤ E ∨ m.addr = E + pad) :
    ∃ tot', totspaceStep align (tot, E) m = (tot', maxEnd E m) ∧ Fits align base D B (maxEnd E m) tot' := by
  obtain ⟨hle, h1, h2, h3, h4, h5⟩ := h
  unfold totspaceStep maxEnd
  by_cases hend : E < m.addr + m.len
  · simp only [if_pos hend]
    refine ⟨_, rfl, by omega, h1, h2, h3, ?_, ?_⟩
    · intro ha
      simp only [alignUp, ha, roundUp2, if_true, nativeWsize]
      omega
    · obtain ⟨hp1, hp2⟩ := hpad
      unfold Aligned alignUp roundUp2 nativeWsize at *
      cases align with
      | false =>
        have := hp2 rfl
        simp only [Bool.false_eq_true, if_false] at *
        split <;> omega
      | true =>
        simp only [if_true, forall_const] at *
        split <;> omega
  · simp only [if_neg hend]
    exact ⟨tot, rfl, hle, h1, h2, h3, h4, h5⟩

section
variable (align : Bool)
include align

/-- The count does not depend on where the previous block ended, nor does a new block take more than is counted. -/
theorem totspaceStep_start (tot E : Nat) (m : Mstr) (hE : E ≤ m.addr) (hpos : 0 < m.len) :
    totspaceStep align (tot, E) m = totspaceStep align (tot, m.addr) m := by
  have h1 : E < m.addr + m.len := by omega
  have h2 : m.addr < m.addr + m.len := by omega
  simp only [totspaceStep, if_pos h1, if_pos h2, if_pos hE, if_pos (Nat.le_refl _)]

theorem le_alignUp (x : Nat) : x ≤ alignUp align x := by
  unfold alignUp roundUp2 nativeWsize
  split <;> omega

theorem alignUp_le {x y : Nat} (h : x ≤ y) (hy : Aligned align y) : alignUp align x ≤ y := by
  unfold Aligned alignUp roundUp2 nativeWsize at *
  cases align with
  | false => simpa using h
  | true =>
    simp only [if_true, forall_const] at *
    omega

theorem aligned_alignUp (x : Nat) : Aligned align (alignUp align x) := by
  intro ha
  simp only [alignUp, ha, if_true, roundUp2, nativeWsize]
  omega

theorem le_totspaceStep (p : Nat × Nat) (m : Mstr) : p.1 ≤ (totspaceStep align p m).1 := by
  unfold totspaceStep
  split
  · exact Nat.le_trans (Nat.le_add_right _ _) (le_alignUp align _)
  · exact Nat.le_refl _

theorem le_totspace_foldl (ms : List Mstr) (p : Nat × Nat) : p.1 ≤ (ms.foldl (totspaceStep align) p).1 := by
  induction ms generalizing p with
  | nil => exact Nat.le_refl _
  | cons m ms ih => exact Nat.le_trans (le_totspaceStep align p m) (ih _)

end

/-! ### One contiguous block -/

/-- What `PROCESS_CONTIGUOUS_BLOCK` does: a first part `blk` of the strings is moved, and the next string starts after its end. -/
structure BlockSpec (align : Bool) (delta : Int) (m : Nat → Mstr) (cs : List Nat) (E : Nat) (b : ContiguousBlock)
    (blk : List Nat) : Prop where
  split : cs = blk ++ b.rest
  moved : ∀ i ∈ blk, b.mstrs i = { m i with addr := (((m i).addr : Int) - delta).toNat }
  others : ∀ i, i ∉ blk → b.mstrs i = m i
  le : E ≤ b.endaddr
  ends : ∀ i ∈ blk, (m i).addr + (m i).len ≤ b.endaddr
  next : ∀ i ∈ b.rest.head?, b.endaddr < (m i).addr
  fits : ∀ base D B tot, (∀ i ∈ cs, B ≤ (m i).addr ∧ Aligned align (m i).addr) → Fits align base D B E tot →
    ∃ tot', (blk.map m).foldl (totspaceStep align) (tot, E) = (tot', b.endaddr) ∧ Fits align base D B b.endaddr tot'

theorem padlen_lt (x : Nat) : padlen x < nativeWsize := by
  unfold padlen roundUp2 nativeWsize
  omega

theorem processContiguousBlock_spec (align : Bool) (delta : Int) (cs : List Nat) (m : Nat → Mstr) (E pad : Nat)
    (hnd : cs.Nodup) (hpad : pad < nativeWsize ∧ (align = false → pad = 0)) :
    ∃ blk, BlockSpec align delta m cs E (processContiguousBlock align delta cs m E pad) blk := by
  induction cs generalizing m E pad with
  | nil =>
    exact ⟨[], rfl, by simp, fun _ _ => rfl, Nat.le_refl _, by simp, by simp [processContiguousBlock],
      fun base D B tot _ hf => ⟨tot, rfl, hf⟩⟩
  | cons x xs ih =>
    rw [List.nodup_cons] at hnd
    rw [processContiguousBlock]
    split
    · rename_i hout
      refine ⟨[], rfl, by simp, fun _ _ => rfl, Nat.le_refl _, by simp, ?_, fun base D B tot _ hf => ⟨tot, rfl, hf⟩⟩
      intro i hi
      obtain rfl : x = i := by simpa using hi
      exact hout.1
    · rename_i hin
      have hin' : (m x).addr ≤ E ∨ (m x).addr = E + pad := by omega
      have hpad' : (if align then padlen (m x).len else 0) < nativeWsize ∧
          (align = false → (if align then padlen (m x).len else 0) = 0) := by
        cases align with
        | false => simp [nativeWsize]
        | true => exact ⟨padlen_lt _, by simp⟩
      obtain ⟨blk, hb⟩ := ih (Function.update m x { m x with addr := (((m x).addr : Int) - delta).toNat })
        (maxEnd E (m x)) _ hnd.2 hpad'
      -- the tail does not hold `x`, so what is said about it is said about the strings as they were
      have hother : ∀ i ∈ xs, Function.update m x { m x with addr := (((m x).addr : Int) - delta).toNat } i = m i := by
        intro i hi
        refine Function.update_of_ne ?_ _ _
        rintro rfl
        exact hnd.1 hi
      have hsub : ∀ i ∈ blk, i ∈ xs := by
        intro i hi
        rw [hb.split]
        exact List.mem_append_left _ hi
      have hxblk : x ∉ blk := fun hx => hnd.1 (hsub x hx)
      refine ⟨x :: blk, ?_, ?_, ?_, ?_, ?_, ?_, ?_⟩
      · exact congrArg _ hb.split
      · intro i hi
        rcases List.mem_cons.1 hi with rfl | hi
        · exact (hb.others i hxblk).trans (Function.update_self i _ m)
        · have := hb.moved i hi
          rw [hother i (hsub i hi)] at this
          exact this
      · intro i hi
        rw [List.mem_cons, not_or] at hi
        exact (hb.others i hi.2).trans (Function.update_of_ne hi.1 _ _)
      · refine Nat.le_trans ?_ hb.le
        unfold maxEnd
        split <;> omega
      · intro i hi
        rcases List.mem_cons.1 hi with rfl | hi
        · refine Nat.le_trans ?_ hb.le
          unfold maxEnd
          split <;> omega
        · have := hb.ends i hi
          rw [hother i (hsub i hi)] at this
          exact this
      · intro i hi
        have := hb.next i hi
        rw [hother i] at this
        · exact this
        · rw [hb.split]
          exact List.mem_append_right _ (List.mem_of_mem_head? hi)
      · intro base D B tot hcs hf
        obtain ⟨tot1, hstep, hf1⟩ := hf.step (hcs x (by simp)).1 (hcs x (by simp)).2 hpad hin'
        obtain ⟨tot2, hfold, hf2⟩ := hb.fits base D B tot1 (fun i hi => by
          rw [hother i hi]
          exact hcs i (by simp [hi])) hf1
        refine ⟨tot2, ?_, hf2⟩
        rw [List.map_cons, List.foldl_cons, hstep]
        rw [List.map_congr_left fun i hi => hother i (hsub i hi)] at hfold
        exact hfold

/-! ### The whole compaction -/

/-- A string of the pool is in its new place, with its bytes. -/
structure Placed (mem0 : Nat → UInt8) (m0 : Nat → Mstr) (base : Nat) (c : Compaction) (i : Nat) : Prop where
  len_eq : (c.mstrs i).len = (m0 i).len
  lo : base ≤ (c.mstrs i).addr
  hi : (c.mstrs i).addr + (m0 i).len ≤ c.free
  bytes : ∀ k < (m0 i).len, c.mem ((c.mstrs i).addr + k) = mem0 ((m0 i).addr + k)

/-- What holds between two blocks: the strings `dn` are in their new places, the strings `cs` are still in their old ones, and the
space from `free` on does not reach them, either because it only ever moves down or because it is other memory. -/
structure CompactInv (align : Bool) (mem0 : Nat → UInt8) (m0 : Nat → Mstr) (base limit : Nat) (dn cs : List Nat) (c : Compaction)
    (tot E : Nat) : Prop where
  sorted : cs.Pairwise fun i j => (m0 i).addr ≤ (m0 j).addr
  nodup : (dn ++ cs).Nodup
  pos : ∀ i ∈ cs, 0 < (m0 i).len
  aligned : ∀ i ∈ cs, Aligned align (m0 i).addr
  placed : ∀ i ∈ dn, Placed mem0 m0 base c i
  share : ∀ i ∈ dn, ∀ j ∈ dn, (m0 i).Overlap (m0 j) → (c.mstrs i).addr + (m0 j).addr = (c.mstrs j).addr + (m0 i).addr
  others : ∀ i, i ∉ dn → c.mstrs i = m0 i
  sep : ∀ i ∈ dn, ∀ j ∈ cs, (m0 i).addr + (m0 i).len ≤ (m0 j).addr
  bytes : ∀ j ∈ cs, ∀ k < (m0 j).len, c.mem ((m0 j).addr + k) = mem0 ((m0 j).addr + k)
  base_le : base ≤ c.free
  aligned_base : Aligned align base
  aligned_tot : Aligned align tot
  free_le : c.free ≤ base + tot
  E_le : ∀ i ∈ cs.head?, E ≤ (m0 i).addr
  limit_le : ((cs.map m0).foldl (totspaceStep align) (tot, E)).1 ≤ limit
  apart : (∀ j ∈ cs, alignUp align c.free ≤ (m0 j).addr) ∨
    (∀ j ∈ cs, (m0 j).addr + (m0 j).len ≤ base ∨ base + limit ≤ (m0 j).addr)

/-- One block. -/
theorem CompactInv.step {align : Bool} {mem0 : Nat → UInt8} {m0 : Nat → Mstr} {base limit : Nat} {dn xs : List Nat} {x : Nat}
    {c : Compaction} {tot E : Nat} (h : CompactInv align mem0 m0 base limit dn (x :: xs) c tot E) {b : ContiguousBlock}
    (hb : b = processContiguousBlock align (((m0 x).addr : Int) - alignUp align c.free) (x :: xs) c.mstrs (m0 x).addr 0) :
    ∃ blk tot', x :: xs = blk ++ b.rest ∧ blk ≠ [] ∧ CompactInv align mem0 m0 base limit (dn ++ blk) b.rest
        ⟨memmove c.mem (alignUp align c.free) (m0 x).addr (b.endaddr - (m0 x).addr), b.mstrs,
          alignUp align c.free + (b.endaddr - (m0 x).addr)⟩ tot' b.endaddr := by
  have hndcs : (x :: xs).Nodup := (List.nodup_append.1 h.nodup).2.1
  have hapart : ∀ i ∈ dn, i ∉ x :: xs := fun i hi hx => (List.nodup_append.1 h.nodup).2.2 i hi i hx rfl
  have hcur : ∀ i ∈ x :: xs, c.mstrs i = m0 i := fun i hi => h.others i fun hd => hapart i hd hi
  obtain ⟨blk, hs⟩ := processContiguousBlock_spec align (((m0 x).addr : Int) - alignUp align c.free) (x :: xs) c.mstrs
    (m0 x).addr 0 hndcs ⟨by decide, fun _ => rfl⟩
  rw [← hb] at hs
  set D := alignUp align c.free with hD
  set B := (m0 x).addr with hB
  have hDfree : c.free ≤ D := le_alignUp align c.free
  have hBle : ∀ i ∈ x :: xs, B ≤ (m0 i).addr := by
    intro i hi
    rcases List.mem_cons.1 hi with rfl | hi
    · exact Nat.le_refl _
    · exact (List.pairwise_cons.1 h.sorted).1 i hi
  have hblk : ∀ i ∈ blk, i ∈ x :: xs := fun i hi => hs.split ▸ List.mem_append_left _ hi
  have hrest : ∀ i ∈ b.rest, i ∈ x :: xs := fun i hi => hs.split ▸ List.mem_append_right _ hi
  have hmoved : ∀ i ∈ blk, b.mstrs i = ⟨D + ((m0 i).addr - B), (m0 i).len⟩ := by
    intro i hi
    have := hBle i (hblk i hi)
    have haddr : (((m0 i).addr : Int) - ((B : Int) - D)).toNat = D + ((m0 i).addr - B) := by omega
    rw [hs.moved i hi, hcur i (hblk i hi), haddr]
  have hends : ∀ i ∈ blk, (m0 i).addr + (m0 i).len ≤ b.endaddr := by
    intro i hi
    have := hs.ends i hi
    rwa [hcur i (hblk i hi)] at this
  -- the strings after the block start after its end, since the first of them does
  have hsortedRest : b.rest.Pairwise fun i j => (m0 i).addr ≤ (m0 j).addr := by
    have := h.sorted
    rw [hs.split] at this
    exact (List.pairwise_append.1 this).2.1
  have hafter : ∀ j ∈ b.rest, b.endaddr < (m0 j).addr := by
    intro j hj
    have hnext := hs.next
    cases hr : b.rest with
    | nil => simp [hr] at hj
    | cons y ys =>
      have hy : b.endaddr < (m0 y).addr := by
        have := hnext y (by simp [hr])
        rwa [hcur y (hrest y (by simp [hr]))] at this
      rw [hr] at hj hsortedRest
      rcases List.mem_cons.1 hj with rfl | hj
      · exact hy
      · exact Nat.lt_of_lt_of_le hy ((List.pairwise_cons.1 hsortedRest).1 j hj)
  have hne : blk ≠ [] := by
    rintro rfl
    have hx := hafter x (by
      have := hs.split
      rw [List.nil_append] at this
      simp [← this])
    have := hs.le
    omega
  -- the space counted for the block
  have hfits0 : Fits align base D B B tot := by
    refine ⟨Nat.le_refl _, h.aligned_base, aligned_alignUp align _, h.aligned x (by simp), h.aligned_tot, ?_⟩
    have h0 : alignUp align (B - B) = 0 := by
      rw [Nat.sub_self]
      cases align <;> rfl
    rw [h0]
    refine alignUp_le align h.free_le ?_
    intro ha
    have h1 := h.aligned_base ha
    have h2 := h.aligned_tot ha
    unfold nativeWsize at *
    omega
  obtain ⟨tot', hfold, hfits⟩ := hs.fits base D B tot (by
    intro i hi
    rw [hcur i hi]
    exact ⟨hBle i hi, h.aligned i hi⟩) hfits0
  have hfold' : (blk.map m0).foldl (totspaceStep align) (tot, E) = (tot', b.endaddr) := by
    rw [List.map_congr_left fun i hi => hcur i (hblk i hi)] at hfold
    rw [← hfold]
    cases blk with
    | nil => exact absurd rfl hne
    | cons y ys =>
      obtain rfl : x = y := (List.cons.inj hs.split).1
      rw [List.map_cons, List.foldl_cons, List.foldl_cons, totspaceStep_start align tot E (m0 x) (h.E_le x rfl) (h.pos x (by simp))]
  have hlimit : ((b.rest.map m0).foldl (totspaceStep align) (tot', b.endaddr)).1 ≤ limit := by
    have := h.limit_le
    rw [hs.split, List.map_append, List.foldl_append, hfold'] at this
    exact this
  have hBE : B ≤ b.endaddr := hs.le
  have hfree : D + (b.endaddr - B) ≤ base + tot' := Nat.le_trans (Nat.add_le_add_left (le_alignUp align _) D) hfits.fits
  have htot' : tot' ≤ limit := Nat.le_trans (le_totspace_foldl align _ (tot', b.endaddr)) hlimit
  refine ⟨blk, tot', hs.split, hne, ?_⟩
  constructor
  case sorted => exact hsortedRest
  case nodup =>
    have := h.nodup
    rwa [hs.split, ← List.append_assoc] at this
  case pos => exact fun i hi => h.pos i (hrest i hi)
  case aligned => exact fun i hi => h.aligned i (hrest i hi)
  case placed =>
    intro i hi
    rcases List.mem_append.1 hi with hi | hi
    · obtain ⟨h1, h2, h3, h4⟩ := h.placed i hi
      have hm : b.mstrs i = c.mstrs i := hs.others i fun hx => hapart i hi (hblk i hx)
      refine ⟨by simp only [hm, h1], by simp only [hm, h2], ?_, ?_⟩
      · simp only [hm]
        omega
      · intro k hk
        simp only [hm]
        rw [memmove_of_lt _ (by omega)]
        exact h4 k hk
    · have hend := hends i hi
      have hBi := hBle i (hblk i hi)
      have := h.base_le
      refine ⟨by simp only [hmoved i hi], ?_, ?_, ?_⟩
      · simp only [hmoved i hi]
        omega
      · simp only [hmoved i hi]
        omega
      · intro k hk
        simp only [hmoved i hi]
        rw [Nat.add_assoc, memmove_shift _ (by omega), ← h.bytes i (hblk i hi) k hk]
        congr 1
        omega
  case share =>
    intro i hi j hj hov
    rcases List.mem_append.1 hi with hi | hi <;> rcases List.mem_append.1 hj with hj | hj
    · have hmi : b.mstrs i = c.mstrs i := hs.others i fun hx => hapart i hi (hblk i hx)
      have hmj : b.mstrs j = c.mstrs j := hs.others j fun hx => hapart j hj (hblk j hx)
      simp only [hmi, hmj]
      exact h.share i hi j hj hov
    · have := h.sep i hi j (hblk j hj)
      have := hov.2
      omega
    · have := h.sep j hj i (hblk i hi)
      have := hov.1
      omega
    · have := hBle i (hblk i hi)
      have := hBle j (hblk j hj)
      simp only [hmoved i hi, hmoved j hj]
      omega
  case others =>
    intro i hi
    rw [List.mem_append, not_or] at hi
    exact (hs.others i hi.2).trans (h.others i hi.1)
  case sep =>
    intro i hi j hj
    rcases List.mem_append.1 hi with hi | hi
    · exact h.sep i hi j (hrest j hj)
    · have := hends i hi
      have := hafter j hj
      omega
  case bytes =>
    intro j hj k hk
    have haft := hafter j hj
    rw [← h.bytes j (hrest j hj) k hk]
    refine memmove_of_lt _ ?_
    rcases h.apart with hap | hap
    · have := hap x (by simp)
      omega
    · have := hap j (hrest j hj)
      have := h.base_le
      omega
  case base_le =>
    have := h.base_le
    simp only
    omega
  case aligned_base => exact h.aligned_base
  case aligned_tot => exact hfits.aligned_tot
  case free_le => exact hfree
  case E_le => exact fun i hi => Nat.le_of_lt (hafter i (List.mem_of_mem_head? hi))
  case limit_le => exact hlimit
  case apart =>
    rcases h.apart with hap | hap
    · left
      intro j hj
      have := hap x (by simp)
      have := hafter j hj
      exact alignUp_le align (by simp only; omega) (h.aligned j (hrest j hj))
    · exact .inr fun j hj => hap j (hrest j hj)

/-- The whole loop. -/
theorem CompactInv.run {align : Bool} {mem0 : Nat → UInt8} {m0 : Nat → Mstr} {base limit : Nat} (fuel : Nat) (cs : List Nat)
    {dn : List Nat} {c : Compaction} {tot E : Nat} (h : CompactInv align mem0 m0 base limit dn cs c tot E) (hf : cs.length ≤ fuel) :
    ∃ tot' E', CompactInv align mem0 m0 base limit (dn ++ cs) [] (compactLoop align memmove fuel cs c) tot' E' := by
  induction fuel generalizing cs dn c tot E with
  | zero =>
    obtain rfl : cs = [] := List.length_eq_zero_iff.1 (Nat.le_zero.1 hf)
    exact ⟨tot, E, by simpa [compactLoop] using h⟩
  | succ fuel ih =>
    cases cs with
    | nil => exact ⟨tot, E, by simpa [compactLoop] using h⟩
    | cons x xs =>
      have hx : c.mstrs x = m0 x := h.others x fun hd => (List.nodup_append.1 h.nodup).2.2 x hd x (by simp) rfl
      rw [compactLoop]
      simp only [hx]
      obtain ⟨blk, tot', hsplit, hne, hinv⟩ := h.step rfl
      have hlen : 0 < blk.length := List.length_pos_iff.2 hne
      obtain ⟨tot2, E2, hfin⟩ := ih _ hinv (by
        have := congrArg List.length hsplit
        rw [List.length_append] at this
        omega)
      refine ⟨tot2, E2, ?_⟩
      rwa [List.append_assoc, ← hsplit] at hfin

end StpCompactAux

/-- `MOVE_WITHIN_STPOOL` and `COPY2STPOOL` move the same way. -/
theorem moveWithinStpool_eq (align : Bool) (cstrs : List Nat) (c : Compaction) :
    moveWithinStpool align cstrs c = copy2stpool align cstrs c := by
  unfold moveWithinStpool copy2stpool
  congr 1
  funext mem dst src len a
  split
  · rename_i h
    unfold memmove
    split
    · congr 1
      omega
    · rfl
  · rfl

/-- What a compaction into `[base, base + room)` leaves: every live string with its length and bytes below `free`, overlapping ones
still sharing their bytes, and the other strings alone. -/
structure Compacted (mem0 : Nat → UInt8) (m0 : Nat → Mstr) (live : List Nat) (base room : Nat) (c : Compaction) : Prop where
  len_eq : ∀ i ∈ live, (c.mstrs i).len = (m0 i).len
  lo : ∀ i ∈ live, base ≤ (c.mstrs i).addr
  hi : ∀ i ∈ live, (c.mstrs i).addr + (c.mstrs i).len ≤ c.free
  bytes : ∀ i ∈ live, ∀ k < (m0 i).len, c.mem ((c.mstrs i).addr + k) = mem0 ((m0 i).addr + k)
  share : ∀ i ∈ live, ∀ j ∈ live, (m0 i).Overlap (m0 j) → (c.mstrs i).addr + (m0 j).addr = (c.mstrs j).addr + (m0 i).addr
  others : ∀ i, i ∉ live → c.mstrs i = m0 i
  base_le : base ≤ c.free
  free_le : c.free ≤ base + room

open StpCompactAux in
/-- Compaction of sorted strings, into the pool they are in or into memory apart from it. -/
theorem copy2stpool_spec {align : Bool} {m0 : Nat → Mstr} {oldBase oldFree : Nat} {cs : List Nat}
    (hl : LiveIn align m0 oldBase oldFree cs) (hsorted : cs.Pairwise fun i j => (m0 i).addr ≤ (m0 j).addr) (mem0 : Nat → UInt8)
    (base : Nat) (hal : Aligned align base) (hwhere : base = oldBase ∨ oldFree ≤ base ∨ base + totspace align (cs.map m0) ≤ oldBase) :
    Compacted mem0 m0 cs base (totspace align (cs.map m0)) (copy2stpool align cs ⟨mem0, m0, base⟩) := by
  have hinit : CompactInv align mem0 m0 base (totspace align (cs.map m0)) [] cs ⟨mem0, m0, base⟩ 0
      (((cs.map m0).head?.map Mstr.addr).getD 0) := by
    constructor
    case sorted => exact hsorted
    case nodup => exact hl.nodup
    case pos => exact hl.pos
    case aligned => exact hl.aligned
    case placed => simp
    case share => simp
    case others => exact fun _ _ => rfl
    case sep => simp
    case bytes => exact fun _ _ _ _ => rfl
    case base_le => exact Nat.le_refl _
    case aligned_base => exact hal
    case aligned_tot => exact fun _ => rfl
    case free_le => exact Nat.le_refl _
    case E_le =>
      intro i hi
      cases cs with
      | nil => simp at hi
      | cons x xs =>
        obtain rfl : x = i := by simpa using hi
        simp
    case limit_le => exact Nat.le_refl _
    case apart =>
      rcases hwhere with rfl | hle | hle
      · exact .inl fun j hj => alignUp_le align (hl.lo j hj) (hl.aligned j hj)
      · exact .inr fun j hj => .inl (Nat.le_trans (hl.hi j hj) hle)
      · exact .inr fun j hj => .inr (Nat.le_trans hle (hl.lo j hj))
  obtain ⟨tot', E', hinv⟩ := hinit.run cs.length cs (Nat.le_refl _)
  rw [List.nil_append] at hinv
  have hpl := hinv.placed
  refine ⟨fun i hi => (hpl i hi).len_eq, fun i hi => (hpl i hi).lo, ?_, fun i hi => (hpl i hi).bytes, hinv.share, hinv.others,
    hinv.base_le, ?_⟩
  · intro i hi
    have := (hpl i hi).hi
    rw [← (hpl i hi).len_eq] at this
    exact this
  · exact Nat.le_trans hinv.free_le (Nat.add_le_add_left hinv.limit_le base)

end Gtm
