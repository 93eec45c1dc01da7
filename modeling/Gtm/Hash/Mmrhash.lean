import Gtm.Lib.ByteWords

/-!
# Murmur hashes

The 128-bit hash of `mmrhash.c`, in one piece (`MurmurHash3_x64_128`) and progressive (`gtmmrhash_128_ingest`), on a little-endian
machine. A pointer into the key is what is left of the key from there.
-/

namespace Gtm

open ByteWords

/-- `ROTL64`. -/
def rotl64 (x : BitVec 64) (y : Nat) : BitVec 64 := x <<< y ||| x >>> (64 - y)

/-- `fmix64`. -/
def fmix64 (k : BitVec 64) : BitVec 64 :=
  let k := k ^^^ k >>> 33
  let k := k * 0xff51afd7ed558ccd
  let k := k ^^^ k >>> 33
  let k := k * 0xc4ceb9fe1a85ec53
  k ^^^ k >>> 33

def mmrC1 : BitVec 64 := 0x87c37b91114253d5
def mmrC2 : BitVec 64 := 0x4cf5ad432745937f
def mmrM1 : BitVec 64 := 0x52dce729
def mmrM2 : BitVec 64 := 0x38495ab5

/-- `GETBLOCK64`: a word of memory. -/
def getblock64 (p : List UInt8) (i : Nat) : BitVec 64 := leWord ((p.drop (8 * i)).take 8)

/-- `gtm_uint16`. -/
structure GtmUint16 where
  one : BitVec 64
  two : BitVec 64
deriving DecidableEq

/-! ## In one piece -/

/-- A loop over the first `nblocks` blocks. -/
def forBlocks (body : List UInt8 → GtmUint16 → GtmUint16) : Nat → List UInt8 → GtmUint16 → GtmUint16
  | 0, _, h => h
  | nblocks + 1, blocks, h => forBlocks body nblocks (blocks.drop 16) (body blocks h)

/-- The body of the loop over the blocks of `MurmurHash3_x64_128`. -/
def murmurBlock (blocks : List UInt8) (h : GtmUint16) : GtmUint16 :=
  let k1 := getblock64 blocks 0
  let k2 := getblock64 blocks 1
  let k1 := k1 * mmrC1
  let k1 := rotl64 k1 31
  let k1 := k1 * mmrC2
  let h1 := h.one ^^^ k1
  let h1 := rotl64 h1 27
  let h1 := h1 + h.two
  let h1 := h1 * 5 + mmrM1
  let k2 := k2 * mmrC2
  let k2 := rotl64 k2 33
  let k2 := k2 * mmrC1
  let h2 := h.two ^^^ k2
  let h2 := rotl64 h2 31
  let h2 := h2 + h1
  let h2 := h2 * 5 + mmrM2
  ⟨h1, h2⟩

/-- The cases of the switch on the tail that fall through from `n` bytes to none: byte `n - 1` first. -/
def murmurTail (tail : List UInt8) : Nat → BitVec 64 → BitVec 64
  | 0, k => k
  | n + 1, k => murmurTail tail n (k ^^^ (tail.getD n 0).toBitVec.setWidth 64 <<< (8 * n))

/-- `MurmurHash3_x64_128` of a key of `len` bytes. `len` is an `int`, and is extended with its sign. -/
def murmurHash3X64128 (key : List UInt8) (len : Nat) (seed : BitVec 32) : GtmUint16 :=
  let nblocks := len / 16
  let h := forBlocks murmurBlock nblocks key ⟨seed.setWidth 64, seed.setWidth 64⟩
  let h1 := h.one
  let h2 := h.two
  let tail := key.drop (nblocks * 16)
  let n := len % 16
  let h2 :=
    if 9 ≤ n then
      let k2 := murmurTail (tail.drop 8) (n - 8) 0
      let k2 := k2 * mmrC2
      let k2 := rotl64 k2 33
      let k2 := k2 * mmrC1
      h2 ^^^ k2
    else h2
  let h1 :=
    if 1 ≤ n then
      let k1 := murmurTail tail (min n 8) 0
      let k1 := k1 * mmrC1
      let k1 := rotl64 k1 31
      let k1 := k1 * mmrC2
      h1 ^^^ k1
    else h1
  let h1 := h1 ^^^ (BitVec.ofNat 32 len).signExtend 64
  let h2 := h2 ^^^ (BitVec.ofNat 32 len).signExtend 64
  let h1 := h1 + h2
  let h2 := h2 + h1
  let h1 := fmix64 h1
  let h2 := fmix64 h2
  let h1 := h1 + h2
  ⟨h1, h2 + h1⟩

/-! ## Progressive -/

/-- `hash128_state_t`. -/
structure Hash128State where
  h : GtmUint16
  c : GtmUint16
  carryBytes : Nat
deriving DecidableEq

/-- `HASH128_STATE_INIT`. -/
def hash128StateInit (seed : BitVec 32) : Hash128State :=
  { h := ⟨seed.setWidth 64, seed.setWidth 64⟩, c := ⟨0, 0⟩, carryBytes := 0 }

/-- The second loop of `ADD_BYTES`, with `ab_ptr` at byte `j - 1` of the key. -/
def addBytesOne (key : List UInt8) : Nat → Nat → BitVec 64 → BitVec 64
  | 0, _, c1 => c1
  | j + 1, abOffset, c1 => addBytesOne key j (abOffset - 1) (c1 ||| (key.getD j 0).toBitVec.setWidth 64 <<< (8 * (abOffset - 1)))

/-- The first loop of `ADD_BYTES`, and the second after it. -/
def addBytesTwo (key : List UInt8) : Nat → Nat → GtmUint16 → GtmUint16
  | 0, _, c => c
  | j + 1, abOffset, c =>
    if abOffset > 8 then
      addBytesTwo key j (abOffset - 1) { c with two := c.two ||| (key.getD j 0).toBitVec.setWidth 64 <<< (8 * (abOffset - 9)) }
    else { c with one := addBytesOne key (j + 1) abOffset c.one }

/-- `ADD_BYTES`. -/
def addBytes (state : Hash128State) (key : List UInt8) (count : Nat) : Hash128State :=
  { state with c := addBytesTwo key count (state.carryBytes + count) state.c, carryBytes := state.carryBytes + count }

/-- `GET_BLOCK`: the words of the block and the state. -/
def getBlock (state : Hash128State) (key : List UInt8) : GtmUint16 × Hash128State :=
  let n := state.carryBytes
  let m1 := getblock64 key 0
  let m2 := getblock64 key 1
  if n = 0 then (⟨m1, m2⟩, state)
  else if n = 8 then (⟨state.c.one, m1⟩, { state with c := { state.c with one := m2 } })
  else if n < 8 then
    let k1 := state.c.one ||| m1 <<< (n * 8)
    let k2 := m1 >>> ((8 - n) * 8) ||| m2 <<< (n * 8)
    let c1 := m2 >>> ((8 - n) * 8)
    (⟨k1, k2⟩, { state with c := { state.c with one := c1 } })
  else
    let k1 := state.c.one
    let k2 := state.c.two ||| m1 <<< ((n - 8) * 8)
    let c1 := m1 >>> ((16 - n) * 8) ||| m2 <<< ((n - 8) * 8)
    let c2 := m2 >>> ((16 - n) * 8)
    (⟨k1, k2⟩, { state with c := ⟨c1, c2⟩ })

/-- `INTEGRATE_K1`. -/
def integrateK1 (k1 h1 : BitVec 64) : BitVec 64 :=
  let k1 := k1 * mmrC1
  let k1 := rotl64 k1 31
  let k1 := k1 * mmrC2
  h1 ^^^ k1

/-- `INTEGRATE_K2`. -/
def integrateK2 (k2 h2 : BitVec 64) : BitVec 64 :=
  let k2 := k2 * mmrC2
  let k2 := rotl64 k2 33
  let k2 := k2 * mmrC1
  h2 ^^^ k2

/-- `PROCESS_BLOCK`. -/
def processBlock (k h : GtmUint16) : GtmUint16 :=
  let h1 := integrateK1 k.one h.one
  let h1 := rotl64 h1 27
  let h1 := h1 + h.two
  let h1 := h1 * 5 + mmrM1
  let h2 := integrateK2 k.two h.two
  let h2 := rotl64 h2 31
  let h2 := h2 + h1
  let h2 := h2 * 5 + mmrM2
  ⟨h1, h2⟩

/-- `PROCESS_BYTES`. -/
def processBytes (state : Hash128State) (key : List UInt8) (len : Nat) : Hash128State :=
  if 16 ≤ state.carryBytes + len then
    let pbCarryFill := 16 - state.carryBytes
    let state := addBytes state key pbCarryFill
    let state := { h := processBlock state.c state.h, c := ⟨0, 0⟩, carryBytes := 0 }
    addBytes state (key.drop pbCarryFill) (len - pbCarryFill)
  else addBytes state key len

/-- The loop over the whole blocks of `gtmmrhash_128_ingest`, `n` times. -/
def ingestBlocks : Nat → Hash128State → List UInt8 → Hash128State
  | 0, state, _ => state
  | n + 1, state, keyptr =>
    let (k, state) := getBlock state keyptr
    ingestBlocks n { state with h := processBlock k state.h } (keyptr.drop 16)

/-- `gtmmrhash_128_ingest` of a key at the address `addr`, with or without `UNALIGNED_SAFE`. -/
def gtmmrhash128Ingest (unalignedSafe : Bool) (state : Hash128State) (addr : Nat) (key : List UInt8) : Hash128State :=
  if key.length = 0 then state
  else
    let i := if unalignedSafe then 0 else min ((8 - addr % 8) % 8) key.length
    let state := if 0 < i then processBytes state key i else state
    let key := key.drop i
    let state := ingestBlocks (key.length / 16) state key
    let keyptr := key.drop (key.length / 16 * 16)
    if 0 < keyptr.length then processBytes state keyptr keyptr.length else state

/-- `gtmmrhash_128_result`: the state, which it does not write, and the hash. -/
def gtmmrhash128Result (state : Hash128State) (totalLen : BitVec 32) : Hash128State × GtmUint16 :=
  let h1 := state.h.one
  let h2 := state.h.two
  let h2 := if state.carryBytes ≠ 0 ∧ 8 < state.carryBytes then integrateK2 state.c.two h2 else h2
  let h1 := if state.carryBytes ≠ 0 then integrateK1 state.c.one h1 else h1
  let h1 := h1 ^^^ totalLen.setWidth 64
  let h2 := h2 ^^^ totalLen.setWidth 64
  let h1 := h1 + h2
  let h2 := h2 + h1
  let h1 := fmix64 h1
  let h2 := fmix64 h2
  let h1 := h1 + h2
  (state, ⟨h1, h2 + h1⟩)

/-- `gtmmrhash_128`. -/
def gtmmrhash128 (unalignedSafe : Bool) (addr : Nat) (key : List UInt8) (seed : BitVec 32) : GtmUint16 :=
  (gtmmrhash128Result (gtmmrhash128Ingest unalignedSafe (hash128StateInit seed) addr key) (BitVec.ofNat 32 key.length)).2

/-! ## Runs -/

/-- A call on a state. -/
inductive HashOp
  | ingest (addr : Nat) (chunk : List UInt8)
  | result (totalLen : BitVec 32)

/-- The bytes that a call takes in. -/
def HashOp.bytes : HashOp → List UInt8
  | ingest _ chunk => chunk
  | result _ => []

/-- The state after a call. -/
def hashOp (unalignedSafe : Bool) (state : Hash128State) : HashOp → Hash128State
  | .ingest addr chunk => gtmmrhash128Ingest unalignedSafe state addr chunk
  | .result totalLen => (gtmmrhash128Result state totalLen).1

end Gtm
