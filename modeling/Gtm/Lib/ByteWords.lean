import Mathlib

/-!
# Bytes in words and in blocks

The word whose bytes are those of a list, lowest first, under shifts and disjunctions, words in a memory of bytes, and streams that are worked off in blocks of a
fixed length whatever pieces they come in.
-/

namespace ByteWords

/-! ## Little-endian words -/

/-- The word with the bytes of the list, lowest first. Bytes that are missing are zero, and bytes beyond the eighth are left out. -/
def leWord (bs : List UInt8) : BitVec 64 := bs.foldr (fun b w => w <<< 8 ||| b.toBitVec.setWidth 64) 0

theorem getLsbD_leWord (bs : List UInt8) {i : Nat} (hi : i < 64) : (leWord bs).getLsbD i = (bs.getD (i / 8) 0).toBitVec.getLsbD (i % 8) := by
  induction bs generalizing i with
  | nil => simp [leWord]
  | cons b bs ih =>
    have hcons : leWord (b :: bs) = leWord bs <<< 8 ||| b.toBitVec.setWidth 64 := rfl
    rw [hcons, BitVec.getLsbD_or, BitVec.getLsbD_shiftLeft, BitVec.getLsbD_setWidth]
    by_cases h8 : i < 8
    · have hdiv : i / 8 = 0 := by omega
      have hmod : i % 8 = i := by omega
      simp [hi, h8, hdiv, hmod]
    · have hdiv : i / 8 = (i - 8) / 8 + 1 := by omega
      have hmod : (i - 8) % 8 = i % 8 := by omega
      have hhigh : b.toBitVec.getLsbD i = false := BitVec.getLsbD_of_ge _ _ (by omega)
      rw [ih (by omega), hdiv, hmod, hhigh]
      simp [hi, h8]

theorem leWord_ext {bs cs : List UInt8} (h : ∀ i < 8, bs.getD i 0 = cs.getD i 0) : leWord bs = leWord cs := by
  apply BitVec.eq_of_getLsbD_eq
  intro i hi
  rw [getLsbD_leWord bs hi, getLsbD_leWord cs hi, h (i / 8) (by omega)]

theorem leWord_take (bs : List UInt8) {n : Nat} (hn : 8 ≤ n) : leWord (bs.take n) = leWord bs := by
  refine leWord_ext fun i hi => ?_
  simp only [List.getD_eq_getElem?_getD, List.getElem?_take_of_lt (show i < n by omega)]

/-- The bytes after the eighth do not matter. -/
theorem leWord_append_of_le {bs : List UInt8} (cs : List UInt8) (h : 8 ≤ bs.length) : leWord (bs ++ cs) = leWord bs := by
  refine leWord_ext fun i hi => ?_
  simp only [List.getD_eq_getElem?_getD, List.getElem?_append_left (show i < bs.length by omega)]

theorem leWord_append (bs cs : List UInt8) : leWord (bs ++ cs) = leWord bs ||| leWord cs <<< (8 * bs.length) := by
  apply BitVec.eq_of_getLsbD_eq
  intro i hi
  rw [BitVec.getLsbD_or, BitVec.getLsbD_shiftLeft, getLsbD_leWord _ hi, getLsbD_leWord _ hi]
  simp only [List.getD_eq_getElem?_getD]
  by_cases h : i / 8 < bs.length
  · rw [List.getElem?_append_left h]
    have hlt : i < 8 * bs.length := by omega
    simp [hlt]
  · rw [List.getElem?_append_right (by omega), getLsbD_leWord _ (show i - 8 * bs.length < 64 by omega),
      List.getElem?_eq_none (show bs.length ≤ i / 8 by omega)]
    have hge : ¬ i < 8 * bs.length := by omega
    have hdiv : (i - 8 * bs.length) / 8 = i / 8 - bs.length := by omega
    have hmod : (i - 8 * bs.length) % 8 = i % 8 := by omega
    simp [hi, hge, hdiv, hmod, List.getD_eq_getElem?_getD]

/-- The same with an exclusive or: no byte is in both words. -/
theorem leWord_append_xor (bs cs : List UInt8) : leWord (bs ++ cs) = leWord bs ^^^ leWord cs <<< (8 * bs.length) := by
  rw [leWord_append]
  apply BitVec.eq_of_getLsbD_eq
  intro i hi
  rw [BitVec.getLsbD_or, BitVec.getLsbD_xor, getLsbD_leWord _ hi]
  by_cases h : i < 8 * bs.length
  · simp [h]
  · simp [List.getD_eq_getElem?_getD, List.getElem?_eq_none (show bs.length ≤ i / 8 by omega)]

theorem leWord_shiftRight (bs : List UInt8) (n : Nat) : leWord bs >>> (8 * n) = leWord ((bs.take 8).drop n) := by
  apply BitVec.eq_of_getLsbD_eq
  intro i hi
  rw [BitVec.getLsbD_ushiftRight, getLsbD_leWord _ hi]
  simp only [List.getD_eq_getElem?_getD, List.getElem?_drop]
  by_cases h : 8 * n + i < 64
  · have hdiv : (8 * n + i) / 8 = n + i / 8 := by omega
    have hmod : (8 * n + i) % 8 = i % 8 := by omega
    rw [getLsbD_leWord _ h, hdiv, hmod, List.getD_eq_getElem?_getD, List.getElem?_take_of_lt (by omega)]
  · rw [BitVec.getLsbD_of_ge _ _ (by omega), List.getElem?_take_eq_none (by omega)]
    simp

@[simp] theorem leWord_nil : leWord [] = 0 := rfl

theorem leWord_singleton (b : UInt8) : leWord [b] = b.toBitVec.setWidth 64 := by
  simp [leWord]

/-- Zeros before the bytes shift them up. -/
theorem leWord_replicate_append (n : Nat) (bs : List UInt8) : leWord (List.replicate n 0 ++ bs) = leWord bs <<< (8 * n) := by
  have hzero : leWord (List.replicate n 0) = 0 := by
    apply BitVec.eq_of_getLsbD_eq
    intro i hi
    rw [getLsbD_leWord _ hi]
    by_cases h : i / 8 < n <;> simp [List.getD_eq_getElem?_getD, h]
  rw [leWord_append, hzero]
  simp

/-- One more byte after `n` others. -/
theorem leWord_concat (bs : List UInt8) (b : UInt8) (n : Nat) :
    leWord (bs ++ [b]) <<< (8 * n) = leWord bs <<< (8 * n) ||| b.toBitVec.setWidth 64 <<< (8 * (n + bs.length)) := by
  rw [leWord_append, leWord_singleton, BitVec.shiftLeft_or_distrib, ← BitVec.shiftLeft_add]
  congr 2
  ring

/-! ## Words in memory -/

/-- The word at an address. -/
def getWord (mem : Nat → UInt8) (a : Nat) : BitVec 64 := leWord ((List.range 8).map fun i => mem (a + i))

/-- The memory with a word stored at an address. -/
def setWord (mem : Nat → UInt8) (a : Nat) (w : BitVec 64) : Nat → UInt8 :=
  fun x => if a ≤ x ∧ x < a + 8 then ⟨(w >>> (8 * (x - a))).setWidth 8⟩ else mem x

/-- A word is read from its own eight bytes only. -/
theorem getWord_congr {mem mem' : Nat → UInt8} {a a' : Nat} (h : ∀ i < 8, mem' (a' + i) = mem (a + i)) : getWord mem' a' = getWord mem a := by
  unfold getWord
  congr 1
  exact List.map_congr_left fun i hi => h i (List.mem_range.mp hi)

theorem setWord_of_lt (mem : Nat → UInt8) {a x : Nat} (w : BitVec 64) (h : x < a ∨ a + 8 ≤ x) : setWord mem a w x = mem x := by
  unfold setWord
  rw [if_neg (by omega)]

@[simp] theorem getWord_setWord (mem : Nat → UInt8) (a : Nat) (w : BitVec 64) : getWord (setWord mem a w) a = w := by
  apply BitVec.eq_of_getLsbD_eq
  intro i hi
  have hbyte : ((List.range 8).map fun k => setWord mem a w (a + k)).getD (i / 8) 0 = ⟨(w >>> (8 * (i / 8))).setWidth 8⟩ := by
    have hlt : i / 8 < 8 := by omega
    simp [List.getD_eq_getElem?_getD, setWord, List.getElem?_range hlt, hlt]
  have hpos : 8 * (i / 8) + i % 8 = i := Nat.div_add_mod i 8
  have hmod : i % 8 < 8 := Nat.mod_lt i (by norm_num)
  rw [getWord, getLsbD_leWord _ hi, hbyte]
  simp [hpos, hmod]

/-- A word apart from the one stored. -/
theorem getWord_setWord_of_apart (mem : Nat → UInt8) {a b : Nat} (w : BitVec 64) (h : b + 8 ≤ a ∨ a + 8 ≤ b) :
    getWord (setWord mem a w) b = getWord mem b :=
  getWord_congr fun i hi => setWord_of_lt mem w (by omega)

/-! ## Streams in blocks -/

section Stream

variable {σ β : Type*} (n : Nat) (f : σ → List β → σ)

/-- One more element: a block that is full is worked off. -/
def push (s : σ × List β) (b : β) : σ × List β :=
  if s.2.length + 1 = n then (f s.1 (s.2 ++ [b]), []) else (s.1, s.2 ++ [b])

/-- A stream of elements. -/
def feed (s : σ × List β) (bs : List β) : σ × List β := bs.foldl (push n f) s

variable {n f} {h : σ} {p bs : List β}

@[simp] theorem feed_nil (s : σ × List β) : feed n f s [] = s := rfl

theorem feed_append (s : σ × List β) (bs cs : List β) : feed n f s (bs ++ cs) = feed n f (feed n f s bs) cs := List.foldl_append

theorem feed_short (hlen : p.length + bs.length < n) : feed n f (h, p) bs = (h, p ++ bs) := by
  induction bs generalizing p with
  | nil => simp
  | cons b bs ih =>
    rw [List.length_cons] at hlen
    have hpush : push n f (h, p) b = (h, p ++ [b]) := if_neg (by simp only; omega)
    have hcons : feed n f (h, p) (b :: bs) = feed n f (push n f (h, p) b) bs := rfl
    rw [hcons, hpush, ih (by simp only [List.length_append, List.length_singleton]; omega)]
    simp

theorem feed_full (hbs : bs ≠ []) (hlen : p.length + bs.length = n) : feed n f (h, p) bs = (f h (p ++ bs), []) := by
  obtain ⟨init, b, rfl⟩ := (List.eq_nil_or_concat' bs).resolve_left hbs
  rw [List.length_append, List.length_singleton] at hlen
  have hpush : push n f (h, p ++ init) b = (f h (p ++ init ++ [b]), []) := if_pos (by simp only [List.length_append]; omega)
  have hlast : feed n f (h, p ++ init) [b] = push n f (h, p ++ init) b := rfl
  have hinit : feed n f (h, p) init = (h, p ++ init) := feed_short (by omega)
  rw [feed_append, hinit, hlast, hpush, List.append_assoc]

/-- A whole block more: what was pending goes first, and as much stays pending. -/
theorem feed_block (hp : p.length < n) (hlen : bs.length = n) :
    feed n f (h, p) bs = (f h (p ++ bs.take (n - p.length)), bs.drop (n - p.length)) := by
  have htake : (bs.take (n - p.length)).length = n - p.length := by rw [List.length_take]; omega
  have hne : bs.take (n - p.length) ≠ [] := by
    intro hnil
    rw [hnil, List.length_nil] at htake
    omega
  conv_lhs => rw [← List.take_append_drop (n - p.length) bs]
  rw [feed_append, feed_full hne (by omega), feed_short (by rw [List.length_nil, List.length_drop]; omega)]
  rfl

end Stream

end ByteWords
