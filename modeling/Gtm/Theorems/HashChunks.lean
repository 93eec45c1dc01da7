import Gtm.Hash.Mmrhash

/-!
# Hashing in pieces

The progressive hash works off blocks of 16 bytes and carries the bytes of a block that is not full, whatever pieces the key comes in
and wherever they lie in memory. Its result is that of the hash in one piece.
-/

namespace Gtm

open ByteWords

namespace HashChunksAux

/-- What a block does to the hash. -/
def hashBlock (h : GtmUint16) (bs : List UInt8) : GtmUint16 := processBlock ⟨leWord bs, leWord (bs.drop 8)⟩ h

/-- The state holds the hash of the blocks so far, and carries the bytes `p`. -/
structure Carries (state : Hash128State) (h : GtmUint16) (p : List UInt8) : Prop where
  h : state.h = h
  one : state.c.one = leWord p
  two : state.c.two = leWord (p.drop 8)
  carryBytes : state.carryBytes = p.length

/-- The state after some bytes. -/
def Streamed (state : Hash128State) (s : GtmUint16 × List UInt8) : Prop := Carries state s.1 s.2 ∧ s.2.length < 16

theorem getblock64_zero (p : List UInt8) : getblock64 p 0 = leWord p := leWord_take _ (le_refl 8)

theorem getblock64_one (p : List UInt8) : getblock64 p 1 = leWord (p.drop 8) := leWord_take _ (le_refl 8)

/-! ## Bytes -/

theorem take_succ_getD (key : List UInt8) {j : Nat} (hj : j < key.length) : key.take (j + 1) = key.take j ++ [key.getD j 0] := by
  rw [List.take_succ_eq_append_getElem hj, List.getD_eq_getElem?_getD, List.getElem?_eq_getElem hj, Option.getD_some]

/-- The second loop of `ADD_BYTES` puts `j` bytes behind `n` others. -/
theorem addBytesOne_eq (key : List UInt8) {n j : Nat} (hj : j ≤ key.length) (c1 : BitVec 64) :
    addBytesOne key j (n + j) c1 = c1 ||| leWord (key.take j) <<< (8 * n) := by
  induction j generalizing c1 with
  | zero => simp [addBytesOne]
  | succ j ih =>
    have hlen : (key.take j).length = j := by rw [List.length_take]; omega
    rw [addBytesOne, ← Nat.add_assoc, Nat.add_sub_cancel, ih (by omega), take_succ_getD key hj, leWord_concat, hlen, BitVec.or_assoc]
    congr 1
    exact BitVec.or_comm _ _

/-- Both loops of `ADD_BYTES` put `j` bytes behind `n` others. -/
theorem addBytesTwo_eq (key : List UInt8) {n j : Nat} (hj : j ≤ key.length) (c : GtmUint16) : addBytesTwo key j (n + j) c =
      ⟨c.one ||| leWord (key.take j) <<< (8 * n), c.two ||| leWord ((List.replicate n 0 ++ key.take j).drop 8)⟩ := by
  induction j generalizing c with
  | zero =>
    have hnil : leWord (List.replicate (n - 8) 0) = 0 := by simpa using leWord_replicate_append (n - 8) []
    simp [addBytesTwo, hnil]
  | succ j ih =>
    have hlen : (key.take j).length = j := by rw [List.length_take]; omega
    rw [addBytesTwo, ← Nat.add_assoc]
    split
    · next h8 =>
      have hdrop : (List.replicate n 0 ++ (key.take j ++ [key.getD j 0])).drop 8 =
          (List.replicate n 0 ++ key.take j).drop 8 ++ [key.getD j 0] := by
        rw [← List.append_assoc, List.drop_append_of_le_length]
        rw [List.length_append, List.length_replicate]
        omega
      have hpos : ((List.replicate n (0 : UInt8) ++ key.take j).drop 8).length = n + j - 8 := by
        rw [List.length_drop, List.length_append, List.length_replicate, hlen]
      have hsub : n + j + 1 - 9 = n + j - 8 := by omega
      have hover : ((key.getD j 0).toBitVec.setWidth 64) <<< (8 * (n + j)) = 0 := by
        rw [BitVec.shiftLeft_eq_zero (by omega)]
        rfl
      rw [Nat.add_sub_cancel, ih (by omega), take_succ_getD key hj, leWord_concat, hdrop, leWord_append _ [key.getD j 0], hlen, hpos,
        leWord_singleton, hsub, hover]
      congr 1
      · exact congrArg (c.one ||| ·) (BitVec.or_zero).symm
      · rw [BitVec.or_assoc]
        exact congrArg (c.two ||| ·) (BitVec.or_comm _ _)
    · next h8 =>
      have hnil : (List.replicate n (0 : UInt8) ++ key.take (j + 1)).drop 8 = [] := by
        refine List.drop_eq_nil_of_le ?_
        rw [List.length_append, List.length_replicate, List.length_take]
        omega
      have hone := addBytesOne_eq key (n := n) hj c.one
      rw [← Nat.add_assoc] at hone
      rw [hnil, hone]
      simp

variable {state : Hash128State} {h : GtmUint16} {p : List UInt8} {s : GtmUint16 × List UInt8}

/-- `ADD_BYTES`. -/
theorem Carries.addBytes (hc : Carries state h p) {key : List UInt8} {count : Nat} (hcount : count ≤ key.length) :
    Carries (addBytes state key count) h (p ++ key.take count) := by
  have hlen : (key.take count).length = count := by rw [List.length_take]; omega
  have hadd := addBytesTwo_eq key (n := p.length) hcount state.c
  refine ⟨hc.h, ?_, ?_, by rw [Gtm.addBytes, hc.carryBytes, List.length_append, hlen]⟩
  · simp only [Gtm.addBytes, hc.carryBytes, hadd]
    rw [hc.one, leWord_append]
  · simp only [Gtm.addBytes, hc.carryBytes, hadd]
    rw [hc.two, List.drop_append, List.drop_append, List.length_replicate, List.drop_replicate, leWord_replicate_append, leWord_append,
      List.length_drop]

/-- `PROCESS_BYTES`. -/
theorem Streamed.processBytes (hs : Streamed state s) {key : List UInt8} {len : Nat} (hlen : len ≤ key.length) (hshort : len < 16) :
    Streamed (processBytes state key len) (feed 16 hashBlock s (key.take len)) := by
  obtain ⟨hc, hp⟩ := hs
  obtain ⟨h, p⟩ := s
  simp only at hc hp
  have htake : (key.take len).length = len := by rw [List.length_take]; omega
  rw [Gtm.processBytes, hc.carryBytes]
  split
  · next hfill =>
    obtain ⟨fill, hf⟩ : ∃ fill, fill = 16 - p.length := ⟨_, rfl⟩
    have hsplit : key.take len = key.take fill ++ (key.drop fill).take (len - fill) := by
      rw [← List.take_add]
      congr 1
      omega
    have hfl : (key.take fill).length = fill := by rw [List.length_take]; omega
    have hne : key.take fill ≠ [] := by
      intro hnil
      rw [hnil, List.length_nil] at hfl
      omega
    have hrest : ((key.drop fill).take (len - fill)).length = len - fill := by
      rw [List.length_take, List.length_drop]
      omega
    rw [← hf, hsplit, feed_append, feed_full hne (by omega), feed_short (by rw [List.length_nil]; omega)]
    have hfillLe : fill ≤ key.length := by omega
    have hfull := hc.addBytes hfillLe
    refine ⟨Carries.addBytes (p := []) ⟨?_, rfl, rfl, rfl⟩ (by rw [List.length_drop]; omega), ?_⟩
    · rw [hashBlock, ← hfull.one, ← hfull.two, ← hfull.h]
    · simp only [List.nil_append]
      omega
  · next hfill =>
    rw [feed_short (by omega)]
    refine ⟨hc.addBytes hlen, ?_⟩
    simp only [List.length_append]
    omega

/-! ## Blocks -/

/-- `GET_BLOCK`: the words of the block that the carried bytes begin, and what stays carried. -/
theorem Carries.getBlock (hc : Carries state h p) (hp : p.length < 16) {key : List UInt8} {B : List UInt8} (hB : B = key.take 16)
    (hlen : B.length = 16) : (getBlock state key).1 = ⟨leWord (p ++ B), leWord ((p ++ B).drop 8)⟩ ∧
      Carries (getBlock state key).2 h ((p ++ B).drop 16) := by
  have hm1 : getblock64 key 0 = leWord B := by
    rw [getblock64_zero, hB, leWord_take _ (by omega)]
  have hm2 : getblock64 key 1 = leWord (B.drop 8) := by
    rw [getblock64_one, hB, List.drop_take, leWord_take _ (by omega)]
  have hdrop : ∀ n, (p ++ B).drop n = p.drop n ++ B.drop (n - p.length) := fun n => List.drop_append
  have hcarry : ((p ++ B).drop 16).length = p.length := by
    rw [List.length_drop, List.length_append]
    omega
  have hB16 : ∀ n, 16 ≤ n → B.drop n = [] := fun n hn => List.drop_eq_nil_of_le (by omega)
  have hp16 : ∀ n, p.length ≤ n → p.drop n = [] := fun n hn => List.drop_eq_nil_of_le hn
  simp only [Gtm.getBlock, hc.carryBytes, hm1, hm2]
  split
  · next h0 =>
    obtain rfl := List.length_eq_zero_iff.1 h0
    refine ⟨rfl, hc.h, ?_, ?_, ?_⟩
    · rw [hc.one, List.nil_append, hB16 16 (le_refl _)]
    · rw [hc.two, List.nil_append, hB16 16 (le_refl _)]
    · rw [hcarry]
      exact hc.carryBytes
  split
  · next h8 =>
    have hk2 : leWord ((p ++ B).drop 8) = leWord B := by rw [hdrop, h8, hp16 8 (by omega)]; rfl
    refine ⟨?_, hc.h, ?_, ?_, ?_⟩
    · rw [hc.one, leWord_append_of_le B (by omega), hk2]
    · rw [hdrop, hp16 16 (by omega), h8]
      rfl
    · rw [hc.two, List.drop_drop, hdrop, hp16 8 (by omega), hp16 24 (by omega), hB16 _ (by omega)]
      rfl
    · rw [hcarry]
  split
  · next h0 h8 hlt =>
    have hright : ∀ bs : List UInt8, leWord bs >>> ((8 - p.length) * 8) = leWord ((bs.take 8).drop (8 - p.length)) := by
      intro bs
      rw [Nat.mul_comm]
      exact leWord_shiftRight bs _
    have hk2 : leWord ((p ++ B).drop 8) = leWord B >>> ((8 - p.length) * 8) ||| leWord (B.drop 8) <<< (p.length * 8) := by
      have hcut : (p ++ B).drop 8 = (B.take 8).drop (8 - p.length) ++ B.drop 8 := by
        rw [hdrop, hp16 8 (by omega), List.nil_append]
        conv_lhs => rw [← List.take_append_drop 8 B]
        exact List.drop_append_of_le_length (by rw [List.length_take]; omega)
      have hcl : ((B.take 8).drop (8 - p.length)).length = p.length := by
        rw [List.length_drop, List.length_take]
        omega
      rw [hcut, leWord_append, hcl, hright, Nat.mul_comm p.length]
    refine ⟨?_, hc.h, ?_, ?_, ?_⟩
    · rw [hc.one, hk2, leWord_append, Nat.mul_comm p.length]
    · have hsum : 8 + (8 - p.length) = 16 - p.length := by omega
      have hrest : leWord (B.drop 8) >>> ((8 - p.length) * 8) = leWord (B.drop (16 - p.length)) := by
        rw [hright, List.take_of_length_le (by rw [List.length_drop]; omega), List.drop_drop, hsum]
      rw [hdrop, hp16 16 (by omega)]
      exact hrest
    · rw [hc.two, List.drop_drop, hdrop, hp16 8 (by omega), hp16 24 (by omega), hB16 _ (by omega)]
      rfl
    · rw [hcarry]
  · next h0 h8 hge =>
    have hright : ∀ bs : List UInt8, leWord bs >>> ((16 - p.length) * 8) = leWord ((bs.take 8).drop (16 - p.length)) := by
      intro bs
      rw [Nat.mul_comm]
      exact leWord_shiftRight bs _
    have hk2 : leWord ((p ++ B).drop 8) = leWord (p.drop 8) ||| leWord B <<< ((p.length - 8) * 8) := by
      have hzero : 8 - p.length = 0 := by omega
      rw [hdrop, hzero, leWord_append, List.length_drop, Nat.mul_comm (p.length - 8)]
      rfl
    have hc1 : leWord ((p ++ B).drop 16) = leWord B >>> ((16 - p.length) * 8) ||| leWord (B.drop 8) <<< ((p.length - 8) * 8) := by
      have hcut : (p ++ B).drop 16 = (B.take 8).drop (16 - p.length) ++ B.drop 8 := by
        rw [hdrop, hp16 16 (by omega), List.nil_append]
        conv_lhs => rw [← List.take_append_drop 8 B]
        exact List.drop_append_of_le_length (by rw [List.length_take]; omega)
      have hcl : ((B.take 8).drop (16 - p.length)).length = p.length - 8 := by
        rw [List.length_drop, List.length_take]
        omega
      rw [hcut, leWord_append, hcl, hright, Nat.mul_comm (p.length - 8)]
    refine ⟨?_, hc.h, hc1.symm, ?_, ?_⟩
    · rw [hc.one, hc.two, hk2, leWord_append_of_le B (by omega)]
    · have hsum : 8 + (16 - p.length) = 24 - p.length := by omega
      have hrest : leWord (B.drop 8) >>> ((16 - p.length) * 8) = leWord (B.drop (24 - p.length)) := by
        rw [hright, List.take_of_length_le (by rw [List.length_drop]; omega), List.drop_drop, hsum]
      rw [List.drop_drop, hdrop, hp16 24 (by omega)]
      exact hrest
    · rw [hcarry]

/-- The loop over the whole blocks. -/
theorem Streamed.ingestBlocks (hs : Streamed state s) {key : List UInt8} {n : Nat} (hlen : n * 16 ≤ key.length) :
    Streamed (ingestBlocks n state key) (feed 16 hashBlock s (key.take (n * 16))) := by
  induction n generalizing state s key with
  | zero => simpa [Gtm.ingestBlocks] using hs
  | succ n ih =>
    obtain ⟨hc, hp⟩ := hs
    obtain ⟨h, p⟩ := s
    simp only at hc hp
    have hB : (key.take 16).length = 16 := by rw [List.length_take]; omega
    obtain ⟨hk, hst⟩ := hc.getBlock hp rfl hB
    have hsplit : key.take ((n + 1) * 16) = key.take 16 ++ (key.drop 16).take (n * 16) := by
      rw [← List.take_add]
      congr 1
      omega
    have hcut : (p ++ key.take 16).drop 16 = (key.take 16).drop (16 - p.length) := by
      rw [List.drop_append, List.drop_eq_nil_of_le (by omega)]
      rfl
    have htake : (p ++ key.take 16).take 16 = p ++ (key.take 16).take (16 - p.length) := by
      rw [List.take_append, List.take_of_length_le (by omega)]
    rw [hcut] at hst
    have hnext : Streamed { (Gtm.getBlock state key).2 with h := processBlock (Gtm.getBlock state key).1 (Gtm.getBlock state key).2.h }
        (hashBlock h (p ++ (key.take 16).take (16 - p.length)), (key.take 16).drop (16 - p.length)) := by
      refine ⟨⟨?_, hst.one, hst.two, hst.carryBytes⟩, ?_⟩
      · rw [hst.h, hk, hashBlock, ← htake, leWord_take _ (by omega), List.drop_take, leWord_take _ (by omega)]
      · simp only [List.length_drop]
        omega
    rw [hsplit, feed_append, feed_block hp hB, Gtm.ingestBlocks]
    exact ih hnext (by rw [List.length_drop]; omega)

/-- `gtmmrhash_128_ingest`. -/
theorem Streamed.ingest (hs : Streamed state s) (unalignedSafe : Bool) (addr : Nat) (key : List UInt8) :
    Streamed (gtmmrhash128Ingest unalignedSafe state addr key) (feed 16 hashBlock s key) := by
  unfold gtmmrhash128Ingest
  split
  · next h0 =>
    obtain rfl := List.length_eq_zero_iff.1 h0
    exact hs
  · obtain ⟨i, hi⟩ : ∃ i, i = if unalignedSafe then 0 else min ((8 - addr % 8) % 8) key.length := ⟨_, rfl⟩
    have hile : i ≤ key.length ∧ i < 16 := by
      rw [hi]
      split <;> omega
    simp only [← hi]
    -- up to the aligned address, then whole blocks, then the rest
    have h₁ : Streamed (if 0 < i then Gtm.processBytes state key i else state) (feed 16 hashBlock s (key.take i)) := by
      split
      · exact hs.processBytes hile.1 hile.2
      · next h =>
        obtain rfl : i = 0 := by omega
        exact hs
    obtain ⟨rest, hrest⟩ : ∃ rest, rest = key.drop i := ⟨_, rfl⟩
    have hkey : key = key.take i ++ (rest.take (rest.length / 16 * 16) ++ rest.drop (rest.length / 16 * 16)) := by
      rw [List.take_append_drop, hrest, List.take_append_drop]
    have hle : rest.length / 16 * 16 ≤ rest.length := by omega
    have h₂ := h₁.ingestBlocks hle
    rw [← hrest, hkey, feed_append, feed_append, ← hkey]
    have hlast : (rest.drop (rest.length / 16 * 16)).length < 16 := by
      rw [List.length_drop]
      omega
    split
    · have := h₂.processBytes (le_refl _) hlast
      rwa [List.take_length] at this
    · next h =>
      obtain hnil : rest.drop (rest.length / 16 * 16) = [] := List.length_eq_zero_iff.1 (by omega)
      rw [hnil]
      exact h₂

theorem holds_init (seed : BitVec 32) : Streamed (hash128StateInit seed) (⟨seed.setWidth 64, seed.setWidth 64⟩, []) :=
  ⟨⟨rfl, rfl, rfl, rfl⟩, by simp⟩

/-- Calls in any order, as one stream. -/
theorem Streamed.ops (hs : Streamed state s) (unalignedSafe : Bool) (ops : List HashOp) :
    Streamed (ops.foldl (hashOp unalignedSafe) state) (feed 16 hashBlock s (ops.flatMap HashOp.bytes)) := by
  induction ops generalizing state s with
  | nil => exact hs
  | cons op ops ih =>
    rw [List.flatMap_cons, feed_append]
    cases op with
    | ingest addr chunk => exact ih (hs.ingest unalignedSafe addr chunk)
    | result totalLen => exact ih hs

/-! ## The hash in one piece -/

/-- The body of the loop in the words of `PROCESS_BLOCK`. -/
theorem murmurBlock_eq (key : List UInt8) (h : GtmUint16) : murmurBlock key h = hashBlock h (key.take 16) := by
  rw [hashBlock, leWord_take _ (by omega), List.drop_take, leWord_take _ (by omega), ← getblock64_zero, ← getblock64_one]
  rfl

theorem forBlocks_eq {body : List UInt8 → GtmUint16 → GtmUint16} (hbody : ∀ key h, body key h = hashBlock h (key.take 16))
    (key : List UInt8) {n : Nat} (hlen : n * 16 ≤ key.length) (h : GtmUint16) :
    feed 16 hashBlock (h, []) (key.take (n * 16)) = (forBlocks body n key h, []) := by
  induction n generalizing key h with
  | zero => simp [forBlocks]
  | succ n ih =>
    have hB : (key.take 16).length = 16 := by rw [List.length_take]; omega
    have hsplit : key.take ((n + 1) * 16) = key.take 16 ++ (key.drop 16).take (n * 16) := by
      rw [← List.take_add]
      congr 1
      omega
    have hne : key.take 16 ≠ [] := by
      intro hnil
      rw [hnil, List.length_nil] at hB
      omega
    rw [hsplit, feed_append, feed_full hne (by rw [List.length_nil, hB]), forBlocks, hbody]
    exact ih _ (by rw [List.length_drop]; omega) _

theorem murmurTail_eq (tail : List UInt8) {n : Nat} (hn : n ≤ tail.length) (k : BitVec 64) :
    murmurTail tail n k = k ^^^ leWord (tail.take n) := by
  induction n generalizing k with
  | zero => simp [murmurTail]
  | succ n ih =>
    have hlen : (tail.take n).length = n := by rw [List.length_take]; omega
    rw [murmurTail, ih (by omega), take_succ_getD tail hn, leWord_append_xor, leWord_singleton, hlen, BitVec.xor_assoc]
    congr 1
    exact BitVec.xor_comm _ _

/-- The finalization of both hashes. -/
def finalize (h1 h2 len : BitVec 64) : GtmUint16 :=
  let h1 := h1 ^^^ len
  let h2 := h2 ^^^ len
  let h1 := h1 + h2
  let h2 := h2 + h1
  let h1 := fmix64 h1
  let h2 := fmix64 h2
  let h1 := h1 + h2
  ⟨h1, h2 + h1⟩

theorem result_eq (state : Hash128State) (totalLen : BitVec 32) : (gtmmrhash128Result state totalLen).2 =
      finalize (if state.carryBytes ≠ 0 then integrateK1 state.c.one state.h.one else state.h.one)
        (if state.carryBytes ≠ 0 ∧ 8 < state.carryBytes then integrateK2 state.c.two state.h.two else state.h.two)
        (totalLen.setWidth 64) := by
  rfl

theorem murmurHash3X64128_eq (key : List UInt8) (len : Nat) (seed : BitVec 32) :
    let h := forBlocks murmurBlock (len / 16) key ⟨seed.setWidth 64, seed.setWidth 64⟩
    let tail := key.drop (len / 16 * 16)
    murmurHash3X64128 key len seed = finalize (if 1 ≤ len % 16 then integrateK1 (murmurTail tail (min (len % 16) 8) 0) h.one else h.one)
        (if 9 ≤ len % 16 then integrateK2 (murmurTail (tail.drop 8) (len % 16 - 8) 0) h.two else h.two)
        ((BitVec.ofNat 32 len).signExtend 64) := by
  rfl

/-- The hash in one piece is the result of the stream of the key. -/
theorem murmurHash_eq {key : List UInt8} {seed : BitVec 32} (hlen : key.length < 2 ^ 31)
    (hs : Streamed state (feed 16 hashBlock (⟨seed.setWidth 64, seed.setWidth 64⟩, []) key)) :
    (gtmmrhash128Result state (BitVec.ofNat 32 key.length)).2 = murmurHash3X64128 key key.length seed := by
  obtain ⟨n, hn⟩ : ∃ n, n = key.length / 16 := ⟨_, rfl⟩
  obtain ⟨tail, htail⟩ : ∃ tail, tail = key.drop (n * 16) := ⟨_, rfl⟩
  have htl : tail.length = key.length % 16 := by
    rw [htail, List.length_drop]
    omega
  have hfeed : feed 16 hashBlock (⟨seed.setWidth 64, seed.setWidth 64⟩, []) key =
      (forBlocks murmurBlock n key ⟨seed.setWidth 64, seed.setWidth 64⟩, tail) := by
    have hkey : key = key.take (n * 16) ++ tail := by rw [htail, List.take_append_drop]
    conv_lhs => rw [hkey]
    rw [feed_append, forBlocks_eq murmurBlock_eq key (by omega), feed_short (by rw [List.length_nil]; omega)]
    rfl
  rw [hfeed] at hs
  obtain ⟨hc, -⟩ := hs
  have hsign : (BitVec.ofNat 32 key.length).signExtend 64 = (BitVec.ofNat 32 key.length).setWidth 64 := by
    refine BitVec.signExtend_eq_setWidth_of_msb_false ?_
    rw [BitVec.msb_eq_false_iff_two_mul_lt, BitVec.toNat_ofNat]
    omega
  have hk2 : murmurTail (tail.drop 8) (key.length % 16 - 8) 0 = leWord (tail.drop 8) := by
    rw [murmurTail_eq _ (by rw [List.length_drop]; omega), List.take_of_length_le (by rw [List.length_drop]; omega)]
    exact BitVec.zero_xor
  have hk1 : murmurTail tail (min (key.length % 16) 8) 0 = leWord tail := by
    rw [murmurTail_eq _ (by omega)]
    refine BitVec.zero_xor.trans ?_
    by_cases h8 : 8 ≤ key.length % 16
    · rw [min_eq_right h8, leWord_take _ (le_refl 8)]
    · rw [List.take_of_length_le (by omega)]
  have hcond2 : (state.carryBytes ≠ 0 ∧ 8 < state.carryBytes) ↔ 9 ≤ key.length % 16 := by
    rw [hc.carryBytes, htl]
    omega
  have hcond1 : state.carryBytes ≠ 0 ↔ 1 ≤ key.length % 16 := by
    rw [hc.carryBytes, htl]
    omega
  rw [result_eq, murmurHash3X64128_eq, ← hn, ← htail, hk1, hk2, hsign, hc.h, hc.one, hc.two]
  exact congrArg₂ (finalize · · _) (if_congr hcond1 rfl rfl) (if_congr hcond2 rfl rfl)

end HashChunksAux

open HashChunksAux

/-- A key that is taken in by pieces, with results asked for in between, has the hash of the whole key, and that is the reference hash. -/
theorem gtmmrhash128_chunks (unalignedSafe : Bool) (addr : Nat) (seed : BitVec 32) (ops : List HashOp) {key : List UInt8}
    (hkey : ops.flatMap HashOp.bytes = key) (hlen : key.length < 2 ^ 31) :
    (gtmmrhash128Result (ops.foldl (hashOp unalignedSafe) (hash128StateInit seed)) (BitVec.ofNat 32 key.length)).2 =
        gtmmrhash128 unalignedSafe addr key seed ∧
      gtmmrhash128 unalignedSafe addr key seed = murmurHash3X64128 key key.length seed := by
  have hops := (holds_init seed).ops unalignedSafe ops
  rw [hkey] at hops
  have hwhole := murmurHash_eq hlen ((holds_init seed).ingest unalignedSafe addr key)
  exact ⟨(murmurHash_eq hlen hops).trans hwhole.symm, hwhole⟩

theorem gtmmrhash128_chunks_hello :
    ∃ key : List UInt8, key = [0x68, 0x65, 0x6c, 0x6c, 0x6f] ∧
      (gtmmrhash128Result ([.ingest 3 [0x68, 0x65], .result 2, .ingest 5 [0x6c, 0x6c, 0x6f]].foldl (hashOp false)
          (hash128StateInit 0)) (BitVec.ofNat 32 key.length)).2 = gtmmrhash128 false 0 key 0 ∧
        gtmmrhash128 false 0 key 0 = murmurHash3X64128 key key.length 0 :=
  ⟨_, rfl, gtmmrhash128_chunks false 0 0 [.ingest 3 [0x68, 0x65], .result 2, .ingest 5 [0x6c, 0x6c, 0x6f]] rfl (by simp)⟩

end Gtm
