import Gtm.Gds.BlkMaps
import Gtm.Lib.FirstIn

/-!
# Bytes of a bitmap

What the searches find in one byte of a map, and in the bytes one after the other.
-/

namespace Gtm

open Scan

/-! ## Bits of the master map -/

/-- A bit of a map. -/
def mapBit (addr : Nat → UInt8) (i : Nat) : Prop := (addr (i / 8)).toNat.testBit (i % 8) = true

instance (addr : Nat → UInt8) (i : Nat) : Decidable (mapBit addr i) := inferInstanceAs (Decidable (_ = true))

section Master

variable {addr : Nat → UInt8}

theorem mapBit_byte {c j : Nat} (hj : j < 8) : mapBit addr (8 * c + j) ↔ (addr c).toNat.testBit j = true := by
  rw [mapBit, show (8 * c + j) / 8 = c by omega, show (8 * c + j) % 8 = j by omega]

theorem ffsBits_firstIn (addr : Nat → UInt8) (c bit n : Nat) (h : bit + n ≤ 8) :
    FirstIn (mapBit addr) (8 * c + bit) (8 * c + bit + n) (ffsBits (addr c) bit (8 * c + bit) n) := by
  induction n generalizing bit with
  | zero => exact firstIn_empty le_rfl
  | succ n ih =>
    have hbit : mapBit addr (8 * c + bit) ↔ (addr c).toNat.testBit bit = true := mapBit_byte (by omega)
    rw [ffsBits]
    split
    · next ht => exact ⟨le_rfl, by omega, hbit.2 ht, fun i hi hib => absurd hi (not_le.2 hib)⟩
    · next hf =>
      have hrest := ih (bit + 1) (by omega)
      have hone : FirstIn (mapBit addr) (8 * c + bit) (8 * c + (bit + 1)) none := fun i hi hib => by
        obtain rfl : i = 8 * c + bit := by omega
        exact fun hm => hf (hbit.1 hm)
      rw [show 8 * c + bit + (n + 1) = 8 * c + (bit + 1) + n by omega]
      exact hone.or hrest (by omega) (by omega)

theorem ffsBytes_firstIn {top c i : Nat} (h : 8 * c = i) : FirstIn (mapBit addr) i top (ffsBytes addr top c i) := by
  fun_induction ffsBytes addr top c i with
  | case1 c i hlt ih =>
    have hbyte : FirstIn (mapBit addr) i (i + 8) (if addr c ≠ 0 then ffsBits (addr c) 0 i 8 else none) := by
      split
      · subst h
        exact ffsBits_firstIn addr c 0 8 le_rfl
      · next hzero =>
        intro j hj hj8 hm
        have hz : addr c = 0 := not_not.1 hzero
        rw [show j = 8 * c + (j - i) by omega, mapBit_byte (by omega), hz] at hm
        simp at hm
    exact hbyte.or (ih (by omega)) (by omega) (by omega)
  | case2 c i hge =>
    subst h
    rcases Nat.lt_or_ge (8 * c) top with hlt | hle
    · have := ffsBits_firstIn addr c 0 (top - 8 * c) (by omega)
      rwa [Nat.add_zero, Nat.add_sub_cancel' hlt.le] at this
    · rw [Nat.sub_eq_zero_of_le hle]
      exact firstIn_empty hle

/-- `gtm_ffs` finds the first bit of its range that is set. -/
theorem gtmFfs_firstIn (addr : Nat → UInt8) (offset size : Nat) : FirstIn (mapBit addr) offset (offset + size) (gtmFfs offset addr size) := by
  simp only [gtmFfs, Nat.add_comm size offset]
  by_cases hi : offset % 8 = 0
  · rw [if_neg (not_not.2 hi), if_neg (not_not.2 hi), show (offset + 7) / 8 * 8 = offset by omega]
    exact ffsBytes_firstIn (by omega)
  · rw [if_pos hi, if_pos hi]
    have hfirst := ffsBits_firstIn addr (offset / 8) (offset % 8) (min (8 - offset % 8) size) (by omega)
    rw [Nat.div_add_mod] at hfirst
    have hrest : FirstIn (mapBit addr) ((offset + 7) / 8 * 8) (offset + size)
        (ffsBytes addr (offset + size) (offset / 8 + 1) ((offset + 7) / 8 * 8)) := ffsBytes_firstIn (by omega)
    rcases Nat.lt_or_ge size (8 - offset % 8) with hlt | hge
    · rw [hrest.eq_none (by omega), Option.or_none]
      rwa [min_eq_right hlt.le] at hfirst ⊢
    · rw [min_eq_left hge] at hfirst ⊢
      rw [show offset + (8 - offset % 8) = (offset + 7) / 8 * 8 by omega] at hfirst
      exact hfirst.or hrest (by omega) (by omega)

theorem bmmPass_firstIn {top start width : Nat} (h : start + width ≤ top) (hzero : width = 0 → start = top) :
    FirstIn (mapBit addr) start top (bmmPass addr top start width) := by
  fun_induction bmmPass addr top start width with
  | case1 start width hpos ih =>
    have hmax : 0 < maxFfsSize := by decide
    exact (gtmFfs_firstIn addr start width).or (ih (by omega) (by omega)) (by omega) h
  | case2 start width hpos => exact firstIn_empty (by omega)

end Master

/-! ## Blocks of a local bitmap -/

/-- The status of a block by its byte. -/
def byteStatus (c : UInt8) (i : Nat) : BmStatus := .ofBits ((c.toNat >>> (i * 2)) &&& 3)

/-- The block can be allocated. -/
def BmStatus.open (s : BmStatus) : Prop := s = .free ∨ s = .recycled

instance (s : BmStatus) : Decidable s.open := inferInstanceAs (Decidable (_ ∨ _))

/-- The blocks of a byte have statuses. -/
def ValidByte (c : UInt8) : Prop := ∀ i < 4, byteStatus c i ≠ .mapInvalid

instance (c : UInt8) : Decidable (ValidByte c) := inferInstanceAs (Decidable (∀ i < 4, _))

theorem getBmStatus_byte (base : Nat → UInt8) {q i : Nat} (hi : i < 4) : getBmStatus base (4 * q + i) = byteStatus (base q) i := by
  rw [getBmStatus, byteStatus, show (4 * q + i) * 2 / 8 = q by omega, show (4 * q + i) * 2 % 8 = i * 2 by omega]

/-- All there is to know of a byte can be tried. -/
theorem forall_byte {p : UInt8 → Prop} (h : ∀ n < 256, p (UInt8.ofNat n)) (c : UInt8) : p c := by
  have := h c.toNat c.toNat_lt
  rwa [UInt8.ofNat_toNat] at this

/-- What the bytes of a bitmap are, tried for all of them. -/
theorem byte_facts (c : UInt8) : ((∀ i ∈ returnIfFree c 0, i < 4 ∧ byteStatus c i ≠ .busy) ∧
      (returnIfFree c 0 = none → ∀ i < 4, byteStatus c i = .busy)) ∧
    (ValidByte c → firstBlk c 0 =
      ((List.range 4).find? fun i => byteStatus c i ≠ .busy).map fun i => (i, decide (byteStatus c i = .recycled))) ∧
    (∀ r < 4, ∀ i < 4, byteStatus (lastByte (r * 2) c) i = if r = 0 ∨ i < r then byteStatus c i else .busy) ∧
    ∀ r < 4, ∀ i < 4, byteStatus (hintByte r c) i = if r ≤ i then byteStatus c i else .busy := by
  apply forall_byte _ c
  decide +kernel

theorem returnIfFree_ptr (c : UInt8) (ptr : Nat) : returnIfFree c ptr = (returnIfFree c 0).map (4 * ptr + ·) := by
  rw [returnIfFree, returnIfFree]
  split
  · rfl
  · rw [Option.map_some, Nat.zero_add, Nat.mul_comm]

theorem firstBlk_ptr (c : UInt8) (ptr : Nat) : firstBlk c ptr = (firstBlk c 0).map fun r => (4 * ptr + r.1, r.2) := by
  simp only [firstBlk]
  split_ifs <;> simp [Nat.mul_comm]

/-- The last byte of a bitmap, as far as it belongs to it. -/
theorem byteStatus_lastByte (c : UInt8) (total : Nat) {i : Nat} (hi : i < 4) :
    byteStatus (lastByte (total * 2) c) i = if total % 4 = 0 ∨ i < total % 4 then byteStatus c i else .busy := by
  have hmod : total * 2 % 8 = total % 4 * 2 := by omega
  have hlast : lastByte (total * 2) c = lastByte (total % 4 * 2) c := by
    rw [lastByte, lastByte, hmod, Nat.mod_eq_of_lt (show total % 4 * 2 < 8 by omega)]
  rw [hlast]
  exact (byte_facts c).2.2.1 _ (Nat.mod_lt _ (by decide)) i hi

/-- A byte from the hint on. -/
theorem byteStatus_hintByte (c : UInt8) (hint : Nat) {i : Nat} (hi : i < 4) :
    byteStatus (hintByte hint c) i = if hint % 4 ≤ i then byteStatus c i else .busy := by
  have hhint : hintByte hint c = hintByte (hint % 4) c := by
    simp only [hintByte, Nat.mod_mod]
  rw [hhint]
  exact (byte_facts c).2.2.2 _ (Nat.mod_lt _ (by decide)) i hi

section Local

variable {base : Nat → UInt8} {c : UInt8} {q a b total : Nat}

/-- The block is not busy. -/
def NotBusy (base : Nat → UInt8) (i : Nat) : Prop := getBmStatus base i ≠ .busy

/-- The byte has the statuses of the blocks of a range, and is busy outside of it. -/
def ByteIn (base : Nat → UInt8) (c : UInt8) (q a b : Nat) : Prop :=
  ∀ i < 4, byteStatus c i = if a ≤ 4 * q + i ∧ 4 * q + i < b then getBmStatus base (4 * q + i) else .busy

theorem byteIn_full (base : Nat → UInt8) (q : Nat) : ByteIn base (base q) q (4 * q) (4 * q + 4) := fun i hi => by
  rw [if_pos (by omega), getBmStatus_byte base hi]

/-- The last byte of a bitmap. -/
theorem byteIn_last (base : Nat → UInt8) (hq : 4 * q < total) (hend : total ≤ 4 * q + 4) :
    ByteIn base (lastByte (total * 2) (base q)) q (4 * q) total := fun i hi => by
  rw [byteStatus_lastByte _ _ hi, ← getBmStatus_byte base hi]
  exact if_congr (by omega) rfl rfl

/-- A byte from the hint on. -/
theorem ByteIn.hint (h : ByteIn base c q (4 * q) b) (hint : Nat) (hq : hint / 4 = q) : ByteIn base (hintByte hint c) q hint b := by
  intro i hi
  rw [byteStatus_hintByte _ _ hi, h i hi, ← ite_and]
  exact if_congr (by omega) rfl rfl

theorem returnIfFree_anyIn (h : ByteIn base c q (4 * q) b) (hb : b ≤ 4 * q + 4) :
    AnyIn (fun i => 4 * q ≤ i ∧ i < b) (NotBusy base) (returnIfFree c q) := by
  obtain ⟨hsome, hnone⟩ := (byte_facts c).1
  rw [returnIfFree_ptr]
  cases hr : returnIfFree c 0 with
  | none =>
    rintro i ⟨hq, hib⟩ hi
    have hbusy := hnone hr (i - 4 * q) (by omega)
    rw [h _ (by omega), if_pos (by omega), show 4 * q + (i - 4 * q) = i by omega] at hbusy
    exact hi hbusy
  | some i =>
    obtain ⟨hi, hopen⟩ := hsome i hr
    rw [h i hi] at hopen
    split_ifs at hopen with hin
    · exact ⟨hin, hopen⟩
    · exact absurd rfl hopen

theorem bmlScan_anyIn (base : Nat → UInt8) (ptr top : Nat) :
    AnyIn (fun i => 4 * ptr ≤ i ∧ i < 4 * top) (NotBusy base) (bmlScan base ptr top) := by
  fun_induction bmlScan base ptr top with
  | case1 ptr hlt ih => exact (returnIfFree_anyIn (byteIn_full base ptr) le_rfl).or ih fun i => by omega
  | case2 ptr hge => exact fun i hi => by omega

/-- `bml_find_free` finds a block that is not busy, if there is one. -/
theorem bmlFindFree_anyIn (base : Nat → UInt8) (hint : Nat) (hpos : 0 < total) (hhint : hint / 4 ≠ (total + 3) / 4) :
    AnyIn (· < total) (NotBusy base) (bmlFindFree hint base total) := by
  simp only [bmlFindFree, show hint * 2 / 8 = hint / 4 by omega, show (total * 2 + 7) / 8 = (total + 3) / 4 by omega]
  generalize hstart : (if hint / 4 > (total + 3) / 4 then 0 else hint / 4) = start
  have hle : start ≤ (total + 3) / 4 - 1 := by
    rw [← hstart]
    split_ifs <;> omega
  rw [max_eq_right hle]
  have hlast := returnIfFree_anyIn (byteIn_last base (show 4 * ((total + 3) / 4 - 1) < total by omega) (by omega)) (by omega)
  have hlast' : AnyIn (fun i => 4 * ((total + 3) / 4 - 1) ≤ i ∧ i < total) (NotBusy base)
      (if base ((total + 3) / 4 - 1) ≠ 0 then
        returnIfFree (lastByte (total * 2) (base ((total + 3) / 4 - 1))) ((total + 3) / 4 - 1) else none) := by
    split_ifs with hzero
    · exact hlast
    · rintro i ⟨hi, hit⟩ hopen
      apply hopen
      rw [show i = 4 * ((total + 3) / 4 - 1) + (i - 4 * ((total + 3) / 4 - 1)) by omega, getBmStatus_byte base (by omega),
        not_not.1 hzero]
      exact (by decide : ∀ j < 4, byteStatus 0 j = .busy) _ (by omega)
  have hwrap : AnyIn (fun i => i < 4 * start) (NotBusy base) (if start ≠ 0 then bmlScan base 0 start else none) := by
    split_ifs with hzero
    · exact (by simpa using bmlScan_anyIn base 0 start)
    · intro i hi
      omega
  have hfront := (bmlScan_anyIn base start ((total + 3) / 4 - 1)).or hlast' fun i =>
    (show 4 * start ≤ i ∧ i < total ↔ _ by omega)
  exact hfront.or hwrap fun i => by omega

/-- What `bm_find_blk` finds in a range: the first block that is not busy, and whether it was used before. -/
structure FoundIn (base : Nat → UInt8) (a b : Nat) (r : Option (Nat × Bool)) : Prop where
  first : FirstIn (NotBusy base) a b (r.map Prod.fst)
  used {blk : Nat} {used : Bool} (h : r = some (blk, used)) : used = true ↔ getBmStatus base blk = .recycled

theorem FoundIn.or {m : Nat} {r r' : Option (Nat × Bool)} (h : FoundIn base a m r) (h' : FoundIn base m b r') (ham : a ≤ m) (hmb : m ≤ b) :
    FoundIn base a b (r.or r') := by
  refine ⟨?_, fun hr => ?_⟩
  · rw [Option.map_or]
    exact h.first.or h'.first ham hmb
  · rcases Option.or_eq_some_iff.1 hr with hr | ⟨-, hr⟩
    · exact h.used hr
    · exact h'.used hr

/-- What is found in one byte. -/
theorem firstBlk_foundIn (h : ByteIn base c q a b) (hvalid : ∀ i, a ≤ i → i < b → getBmStatus base i ≠ .mapInvalid) (ha : 4 * q ≤ a)
    (hb : b ≤ 4 * q + 4) : FoundIn base a b (firstBlk c q) := by
  have hc : ValidByte c := fun i hi => by
    rw [h i hi]
    split_ifs with hin
    · exact hvalid _ hin.1 hin.2
    · decide
  rw [firstBlk_ptr, (byte_facts c).2.1 hc]
  cases hf : (List.range 4).find? fun i => decide (byteStatus c i ≠ .busy) with
  | none =>
    refine ⟨fun i hi hib hopen => ?_, nofun⟩
    have hbusy := List.find?_eq_none.1 hf (i - 4 * q) (List.mem_range.2 (by omega))
    rw [h _ (by omega), if_pos (by omega), show 4 * q + (i - 4 * q) = i by omega] at hbusy
    exact hbusy (decide_eq_true hopen)
  | some i =>
    obtain ⟨hopen, hmem, hfirst⟩ := List.find?_range_eq_some.1 hf
    have hi : i < 4 := List.mem_range.1 hmem
    have hstatus := h i hi
    simp only [decide_eq_true_eq, hstatus] at hopen
    split_ifs at hopen with hin
    · rw [if_pos hin] at hstatus
      refine ⟨⟨hin.1, hin.2, hopen, fun j hj (hji : j < 4 * q + i) hopenj => ?_⟩, fun hr => ?_⟩
      · have hbusy := hfirst (j - 4 * q) (by omega)
        rw [h _ (by omega), if_pos (by omega), show 4 * q + (j - 4 * q) = j by omega] at hbusy
        exact hopenj (by simpa using hbusy)
      · obtain ⟨rfl, rfl⟩ := Prod.mk.inj (Option.some.inj hr)
        simp [hstatus]
    · exact absurd rfl hopen

theorem bmFindRest_foundIn (hvalid : ∀ i < total, getBmStatus base i ≠ .mapInvalid) (hpos : 0 < total) (ptr : Nat) :
    FoundIn base (4 * ptr) total (bmFindRest base (total * 2) ((total + 3) / 4 - 1) ptr) := by
  generalize htop : (total + 3) / 4 - 1 = top
  fun_induction bmFindRest base (total * 2) top ptr with
  | case1 ptr hlt ih =>
    exact (firstBlk_foundIn (byteIn_full base ptr) (fun i _ hi => hvalid i (by omega)) le_rfl le_rfl).or ih (by omega) (by omega)
  | case2 hge hne =>
    exact firstBlk_foundIn (byteIn_last base (by omega) (by omega)) (fun i _ hi => hvalid i hi) le_rfl (by omega)
  | case3 ptr hge hne =>
    refine ⟨fun i hi hit hopen => ?_, nofun⟩
    have hptr : ptr = top := by omega
    have hzero : base ptr = 0 := not_not.1 fun h => hne ⟨hptr, h⟩
    apply hopen
    rw [show i = 4 * ptr + (i - 4 * ptr) by omega, getBmStatus_byte base (by omega), hzero]
    exact (by decide : ∀ j < 4, byteStatus 0 j = .busy) _ (by omega)

/-- `bm_find_blk` finds the first block from the hint on that is not busy. -/
theorem bmFindBlk_foundIn {hint : Nat} (hvalid : ∀ i < total, getBmStatus base i ≠ .mapInvalid) (hhint : hint < total) :
    FoundIn base hint total (bmFindBlk hint base total) := by
  simp only [bmFindBlk, show hint * 2 / 8 = hint / 4 by omega, show (total * 2 + 7) / 8 = (total + 3) / 4 by omega]
  by_cases h0 : hint = 0
  · subst h0
    exact bmFindRest_foundIn hvalid hhint 0
  · rw [if_pos h0]
    have hrest := bmFindRest_foundIn hvalid (by omega : 0 < total) (hint / 4 + 1)
    by_cases htop : hint / 4 = (total + 3) / 4 - 1
    · rw [if_pos htop]
      have hbyte := (byteIn_last base (show 4 * (hint / 4) < total by omega) (by omega)).hint hint rfl
      have hfirst := firstBlk_foundIn hbyte (fun i _ hi => hvalid i hi) (by omega) (by omega)
      have hnone := Option.map_eq_none_iff.1 (hrest.first.eq_none (by omega))
      rwa [hnone, Option.or_none]
    · rw [if_neg htop]
      have hbyte := (byteIn_full base (hint / 4)).hint hint rfl
      have hfirst := firstBlk_foundIn hbyte (fun i _ hi => hvalid i (by omega)) (by omega) le_rfl
      exact hfirst.or hrest (by omega) (by omega)

end Local

end Gtm
