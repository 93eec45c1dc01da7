import Gtm.Gds.SepKey
import Gtm.Lib.CommonPrefix

/-!
# Changing a key where it differs from a larger one

A key ends in the only two delimiters that follow each other. So no key is the beginning of another one, and two keys differ at a
place that lies inside both; what the scans over the two parts of the right key find is this place.
-/

namespace Gtm

open LexOrder CommonPrefix

/-- Two bytes that may follow each other inside a key. -/
def NotBothDelims (a b : UInt8) : Prop := ¬(a = keyDelimiter ∧ b = keyDelimiter)

/-- The bytes of a key: two delimiters at the end, none at the start, and no two of them next to each other before. -/
def KeyBytes (l : List UInt8) : Prop :=
  ∃ c body, c ≠ keyDelimiter ∧ l = c :: body ++ [keyDelimiter, keyDelimiter] ∧
    (c :: body ++ [keyDelimiter]).IsChain NotBothDelims

variable {p : List UInt8}

theorem KeyBytes.chain_of_prefix {l : List UInt8} (h : KeyBytes l) (hp : p <+: l) (hlen : p.length < l.length) : p.IsChain NotBothDelims := by
  obtain ⟨c, body, -, rfl, hchain⟩ := h
  have hpre : c :: body ++ [keyDelimiter] <+: c :: body ++ [keyDelimiter, keyDelimiter] := ⟨[keyDelimiter], by simp⟩
  refine hchain.prefix (List.prefix_of_prefix_length_le hp hpre ?_)
  simp only [List.length_append, List.length_cons, List.length_nil] at hlen ⊢
  omega

/-- A key is not the beginning of a larger one. -/
theorem KeyBytes.not_prefix {l r : List UInt8} (hl : KeyBytes l) (hr : KeyBytes r) (hne : l ≠ r) : ¬ l <+: r := by
  intro hp
  have hlen : l.length < r.length := by
    refine lt_of_le_of_ne hp.length_le ?_
    intro heq
    exact hne (hp.eq_of_length heq)
  have hchain := hr.chain_of_prefix hp hlen
  obtain ⟨c, body, -, rfl, -⟩ := hl
  rw [List.isChain_append_cons_cons] at hchain
  exact hchain.2.1 ⟨rfl, rfl⟩

/-- A byte that is no delimiter stands before the last two of a key. -/
theorem KeyBytes.two_behind {v : List UInt8} {b : UInt8} (h : KeyBytes (p ++ b :: v)) (hb : b ≠ keyDelimiter) : ∃ c d w, v = c :: d :: w := by
  obtain ⟨c, body, -, heq, -⟩ := h
  have hrev := congrArg List.reverse heq
  simp only [List.reverse_append, List.reverse_cons, List.reverse_nil, List.nil_append, List.cons_append, List.append_assoc] at hrev
  match v with
  | [] => simp_all
  | [x] => simp_all
  | x :: y :: w => exact ⟨x, y, w, rfl⟩

/-- The byte at a delimiter with none before it is not the last one. -/
theorem KeyBytes.one_behind {u : List UInt8} {a : UInt8} (h : KeyBytes (p ++ a :: u))
    (ha : a ≠ keyDelimiter ∨ ∃ q x, p = q ++ [x] ∧ x ≠ keyDelimiter) : u ≠ [] := by
  rintro rfl
  obtain ⟨c, body, -, heq, -⟩ := h
  have hsplit : p ++ [a] = (c :: body ++ [keyDelimiter]) ++ [keyDelimiter] := by rw [heq]; simp
  obtain ⟨hp, hlast⟩ := List.append_inj' hsplit rfl
  rcases ha with ha | ⟨q, x, hq, hx⟩
  · exact ha (by simpa using hlast)
  · rw [hq] at hp
    exact hx (by simpa using (List.append_inj' hp rfl).2)

/-- A beginning of a key with other bytes behind it. -/
theorem KeyBytes.cut {u m : List UInt8} {a x : UInt8} (h : KeyBytes (p ++ a :: u))
    (hm : (x :: m ++ [keyDelimiter]).IsChain NotBothDelims) (hjoin : ∀ z ∈ p.getLast?, NotBothDelims z x)
    (hhead : p = [] → x ≠ keyDelimiter) : KeyBytes (p ++ x :: m ++ [keyDelimiter, keyDelimiter]) := by
  have hp : p.IsChain NotBothDelims := h.chain_of_prefix (List.prefix_append _ _) (by simp)
  have hchain : (p ++ (x :: m ++ [keyDelimiter])).IsChain NotBothDelims := by
    rw [List.isChain_append]
    refine ⟨hp, hm, ?_⟩
    intro z hz y hy
    obtain rfl : x = y := by simpa using hy
    exact hjoin z hz
  cases p with
  | nil => exact ⟨x, m, hhead rfl, by simp, hchain⟩
  | cons c p =>
    obtain ⟨c', body, hc, heq, -⟩ := h
    obtain ⟨rfl, -⟩ : c = c' ∧ _ := by simpa using heq
    exact ⟨c, p ++ x :: m, hc, by simp, by simpa using hchain⟩

/-! ### The buffer -/

namespace SepKeyAux

/-- The bytes of the buffer from `pos` on. -/
def Agrees (base : Nat → UInt8) (pos : Nat) (l : List UInt8) : Prop := ∀ i, i < l.length → l[i]? = some (base (pos + i))

variable {base : Nat → UInt8} {c : UInt8} {l p q s : List UInt8} {pos : Nat} {k : KeyBuf}

theorem agrees_cons : Agrees base pos (c :: l) ↔ c = base pos ∧ Agrees base (pos + 1) l := by
  constructor
  · intro h
    refine ⟨by simpa using h 0 (by simp), ?_⟩
    intro i hi
    have := h (i + 1) (by simpa using hi)
    rwa [show pos + (i + 1) = pos + 1 + i by omega] at this
  · rintro ⟨rfl, h⟩ i hi
    cases i with
    | zero => rfl
    | succ i =>
      rw [show pos + (i + 1) = pos + 1 + i by omega]
      exact h i (by simpa using hi)

theorem agrees_append {m : List UInt8} : Agrees base pos (l ++ m) ↔ Agrees base pos l ∧ Agrees base (pos + l.length) m := by
  induction l generalizing pos with
  | nil => simp [Agrees]
  | cons c l ih =>
    rw [List.cons_append, agrees_cons, agrees_cons, ih, List.length_cons, show pos + (l.length + 1) = pos + 1 + l.length by omega]
    tauto

theorem agrees_bytes (k : KeyBuf) : Agrees k.base 0 k.bytes := by
  intro i hi
  rw [KeyBuf.bytes, List.length_map, List.length_range] at hi
  simp [KeyBuf.bytes, hi]

theorem map_eq_of_agrees (h : Agrees base 0 l) : (List.range l.length).map base = l := by
  refine List.ext_getElem? ?_
  intro i
  by_cases hi : i < l.length
  · rw [h i hi]
    simp [hi]
  · simp [hi]

theorem bytes_eq (hlen : l.length = k.kend + 1) (h : Agrees k.base 0 l) : k.bytes = l := by
  rw [KeyBuf.bytes, ← hlen]
  exact map_eq_of_agrees h

/-- The key that was cut. -/
theorem cut_bytes (new : List UInt8) (hp : Agrees k.base 0 p) : (k.cut p.length new).bytes = p ++ new ++ [keyDelimiter, keyDelimiter] := by
  refine bytes_eq (by simp [KeyBuf.cut]; omega) ?_
  rw [List.append_assoc, agrees_append]
  constructor
  · intro i hi
    rw [hp i hi]
    simp only [KeyBuf.cut, Nat.zero_add]
    rw [if_pos hi]
  · intro i hi
    simp only [KeyBuf.cut, Nat.zero_add]
    rw [if_neg (by omega), Nat.add_sub_cancel_left, List.getD_eq_getElem?_getD, List.getElem?_eq_getElem hi]
    rfl

/-- A key has no third delimiter before its last two. -/
theorem keyBytes_third (h : KeyBytes k.bytes) : ¬(2 ≤ k.kend ∧ k.base (k.kend - 2) = keyDelimiter) := by
  rintro ⟨-, hthird⟩
  obtain ⟨c, body, -, heq, hchain⟩ := h
  have hlen : k.kend = body.length + 2 := by
    have := congrArg List.length heq
    simpa [KeyBuf.bytes] using this
  have hag := agrees_bytes k (k.kend - 2) (by rw [heq]; simp; omega)
  rw [Nat.zero_add, hthird, heq, hlen] at hag
  have hlast : (c :: body).getLast? = some keyDelimiter := by
    rw [List.getElem?_append_left (by simp)] at hag
    rw [List.getLast?_eq_getElem?]
    exact hag
  rw [List.isChain_append] at hchain
  exact hchain.2.2 keyDelimiter hlast keyDelimiter rfl ⟨rfl, rfl⟩

/-! ### The comparison -/

theorem segMatch_all (h : Agrees base pos q) : segMatch base q pos = q.length := by
  induction q generalizing pos with
  | nil => rfl
  | cons c q ih =>
    obtain ⟨rfl, htail⟩ := agrees_cons.1 h
    rw [segMatch, if_pos rfl, ih htail, List.length_cons]

theorem segMatch_stop (h : Agrees base pos q) (hc : c ≠ base (pos + q.length)) : segMatch base (q ++ c :: s) pos = q.length := by
  induction q generalizing pos with
  | nil => exact if_neg hc
  | cons d q ih =>
    obtain ⟨rfl, htail⟩ := agrees_cons.1 h
    rw [List.cons_append, segMatch, if_pos rfl, ih htail, List.length_cons]
    rwa [List.length_cons, show pos + (q.length + 1) = pos + 1 + q.length by omega] at hc

/-- The difference lies in the first part, with two bytes of it behind. -/
theorem sepDiff_first {seg3 : List UInt8} {b d : UInt8} (before : UInt8) (hp : Agrees base 0 p)
    (hb : b ≠ base p.length) : sepDiff base (p ++ b :: c :: d :: s) seg3 before = ⟨p.length, b, c, b⟩ := by
  have hmatch : segMatch base (p ++ b :: c :: d :: s) 0 = p.length := segMatch_stop hp (by rwa [Nat.zero_add])
  unfold sepDiff
  rw [hmatch]
  simp [List.getD_eq_getElem?_getD]

/-- The first part agrees with the left key. -/
theorem sepDiff_second {b : UInt8} (before : UInt8) (hq : Agrees base 0 (q ++ p))
    (hb : b ≠ base (q ++ p).length) : sepDiff base q (p ++ b :: c :: s) before = ⟨(q ++ p).length, b, c, b⟩ := by
  obtain ⟨hq, hp⟩ := agrees_append.1 hq
  rw [List.length_append] at hb
  have hmatch : segMatch base (p ++ b :: c :: s) q.length = p.length := by
    rw [Nat.zero_add] at hp
    exact segMatch_stop hp hb
  unfold sepDiff
  rw [segMatch_all hq]
  simp only [if_true, hmatch]
  simp [List.getD_eq_getElem?_getD]

end SepKeyAux

end Gtm

/-!
## The separator of a split

The key that `gvcst_put2` derives for the parent of a split leaf block is a key, fits into its buffer, and lies between the last key
of the left side and the first key of the right side, whichever side the new record goes to.
-/

namespace Gtm

open LexOrder CommonPrefix SepKeyAux

/-- How the update array of the right block holds its first key: a new record at the start has its key in `bs1[2]`. Any other record has
there what it shares with the left key up to a compression count, and the rest of its key at the start of `bs1[3]`. -/
def RightParts (left right seg2 seg3 : List UInt8) : Prop :=
  seg2 = right ∨ ∃ cmpc rest, cmpc ≤ lcp left right ∧ seg2 = left.take cmpc ∧ seg3 = right.drop cmpc ++ rest

/-- A key between two others, within its buffer. -/
structure KeyBetween (left right : List UInt8) (k : KeyBuf) : Prop where
  key : KeyBytes k.bytes
  fits : k.kend < k.top
  ge : left ≤ k.bytes
  lt : k.bytes < right

/-- The place where the left key, in its buffer, and the right key differ. -/
structure Differ (k : KeyBuf) (right p u w : List UInt8) (a b c d : UInt8) : Prop where
  left_eq : k.bytes = p ++ a :: u
  right_eq : right = p ++ b :: c :: d :: w
  lt : a < b
  key : KeyBytes k.bytes

theorem lt_add_one_of_ne {e : UInt8} (h : e ≠ strSubMaxval) : e < e + 1 := by
  have hne : e.toNat ≠ 255 := fun hc => h (UInt8.toNat_inj.1 hc)
  have hlt := UInt8.toNat_lt e
  rw [UInt8.lt_iff_toNat_lt, UInt8.toNat_add, UInt8.toNat_one]
  omega

theorem sub_one_lt_of_ne {c : UInt8} (h : c ≠ keyDelimiter) : c - 1 < c := by
  have hne : c.toNat ≠ 0 := fun hc => h (UInt8.toNat_inj.1 hc)
  rw [UInt8.lt_iff_toNat_lt, UInt8.toNat_sub, UInt8.toNat_one]
  omega

section

variable {k : KeyBuf} {right p u w : List UInt8} {a b c d : UInt8}

theorem Differ.agrees (h : Differ k right p u w a b c d) : Agrees k.base 0 p ∧ a = k.base p.length ∧ Agrees k.base (p.length + 1) u := by
  have := agrees_bytes k
  rw [h.left_eq, agrees_append, agrees_cons, Nat.zero_add] at this
  exact this

theorem Differ.b_ne (h : Differ k right p u w a b c d) : b ≠ keyDelimiter := by
  rintro rfl
  exact absurd h.lt (not_lt.2 (UInt8.zero_le))

/-- Two keys in order differ inside both. -/
theorem differ_of_lt (hl : KeyBytes k.bytes) (hr : KeyBytes right) (hlt : k.bytes < right) :
    ∃ p u w a b c d, Differ k right p u w a b c d := by
  obtain ⟨p, a, b, u, v, hleft, hright, hab⟩ := split_of_lt hlt (hl.not_prefix hr hlt.ne)
  have hb : b ≠ keyDelimiter := by
    rintro rfl
    exact absurd hab (not_lt.2 (UInt8.zero_le))
  rw [hright] at hr
  obtain ⟨c, d, w, rfl⟩ := hr.two_behind hb
  exact ⟨p, u, w, a, b, c, d, hleft, hright, hab, hl⟩

section
variable (h : Differ k right p u w a b c d)
include h

/-- The scans over the parts find the difference. -/
theorem Differ.sepDiff_eq {seg2 seg3 : List UInt8} (before : UInt8)
    (hparts : RightParts k.bytes right seg2 seg3) : sepDiff k.base seg2 seg3 before = ⟨p.length, b, c, b⟩ := by
  obtain ⟨hp, ha, -⟩ := h.agrees
  have hb : b ≠ k.base p.length := by
    rw [← ha]
    exact h.lt.ne'
  rcases hparts with rfl | ⟨cmpc, rest, hcmpc, rfl, rfl⟩
  · rw [h.right_eq]
    exact sepDiff_first before hp hb
  · rw [h.left_eq, h.right_eq, lcp_of_split p u _ h.lt.ne] at hcmpc
    rw [h.left_eq, h.right_eq, List.take_append_of_le_length hcmpc, List.drop_append_of_le_length hcmpc, List.append_assoc]
    have := sepDiff_second (s := d :: w ++ rest) before (q := p.take cmpc) (p := p.drop cmpc) (b := b) (c := c)
      (by rwa [List.take_append_drop]) (by rwa [List.take_append_drop])
    rwa [List.take_append_drop] at this

/-- New bytes at the difference. -/
theorem Differ.cut {x : UInt8} {m : List UInt8} (hfits : p.length + m.length + 2 < k.top)
    (hm : (x :: m ++ [keyDelimiter]).IsChain NotBothDelims) (hx : x = a ∧ u ≠ [] ∨ x ≠ keyDelimiter)
    (hge : k.bytes ≤ p ++ x :: m ++ [keyDelimiter, keyDelimiter]) (hlt : p ++ x :: m ++ [keyDelimiter, keyDelimiter] < right) :
    KeyBetween k.bytes right (k.cut p.length (x :: m)) := by
  have hkey : KeyBytes (p ++ a :: u) := h.left_eq ▸ h.key
  have hjoin : ∀ z ∈ p.getLast?, NotBothDelims z x := by
    intro z hz
    rcases hx with ⟨rfl, hu⟩ | hx
    · -- the byte is unchanged, and stood behind the same byte before
      have hlen : (p ++ [x]).length < (p ++ x :: u).length := by
        have := List.length_pos_of_ne_nil hu
        simp only [List.length_append, List.length_cons, List.length_nil]
        omega
      have hchain := hkey.chain_of_prefix ⟨u, by simp⟩ hlen
      rw [List.isChain_append] at hchain
      exact hchain.2.2 z hz x rfl
    · exact fun hc => hx hc.2
  have hhead : p = [] → x ≠ keyDelimiter := by
    rintro rfl
    rcases hx with ⟨rfl, -⟩ | hx
    · obtain ⟨y, body, hy, heq, -⟩ := hkey
      obtain ⟨rfl, -⟩ : x = y ∧ _ := by simpa using heq
      exact hy
    · exact hx
  have hbytes := cut_bytes (x :: m) h.agrees.1
  refine ⟨?_, ?_, ?_, ?_⟩
  · rw [hbytes]
    exact hkey.cut hm hjoin hhead
  · simp only [KeyBuf.cut, List.length_cons]
    omega
  · rwa [hbytes]
  · rwa [hbytes]

/-- One new byte above the left key. -/
theorem Differ.cut_one {x : UInt8} (hfits : p.length + 2 < k.top) (ha : a < x)
    (hb : x < b ∨ x = b ∧ c ≠ keyDelimiter) : KeyBetween k.bytes right (k.cut p.length [x]) := by
  have hx : x ≠ keyDelimiter := by
    rintro rfl
    exact absurd ha (not_lt.2 (UInt8.zero_le))
  refine h.cut hfits ?_ (.inr hx) ?_ ?_
  · simp [NotBothDelims, hx]
  · rw [h.left_eq, List.append_assoc]
    exact (lt_of_split p _ _ ha).le
  · rw [h.right_eq, List.append_assoc]
    rcases hb with hb | ⟨rfl, hc⟩
    · exact lt_of_split p _ _ hb
    · have hpos : keyDelimiter < c := UInt8.pos_iff_ne_zero.2 hc
      have := lt_of_split (p ++ [x]) [keyDelimiter] (d :: w) hpos
      simpa using this

/-- The byte of the left key, and a larger one behind it. -/
theorem Differ.cut_left {e y : UInt8} {v : List UInt8} (hfits : p.length + 3 < k.top)
    (hu : u = e :: v) (hy : e < y) : KeyBetween k.bytes right (k.cut p.length [a, y]) := by
  have hne : y ≠ keyDelimiter := by
    rintro rfl
    exact absurd hy (not_lt.2 (UInt8.zero_le))
  refine h.cut hfits ?_ (.inl ⟨rfl, by simp [hu]⟩) ?_ ?_
  · simp [NotBothDelims, hne]
  · have := lt_of_split (p ++ [a]) v [keyDelimiter, keyDelimiter] hy
    rw [h.left_eq, hu]
    exact le_of_lt (by simpa using this)
  · rw [h.right_eq, List.append_assoc]
    exact lt_of_split p _ _ h.lt

/-- The byte of the right key, and a smaller one behind it. -/
theorem Differ.cut_right {y : UInt8} (hfits : p.length + 3 < k.top) (hy : y < c)
    (hne : y ≠ keyDelimiter) : KeyBetween k.bytes right (k.cut p.length [b, y]) := by
  refine h.cut hfits ?_ (.inr h.b_ne) ?_ ?_
  · simp [NotBothDelims, hne]
  · rw [h.left_eq, List.append_assoc]
    exact (lt_of_split p _ _ h.lt).le
  · have := lt_of_split (p ++ [b]) [keyDelimiter, keyDelimiter] (d :: w) hy
    rw [h.right_eq]
    simpa using this

/-- Where the left key does not end at the difference, `cp1` sees a byte of it behind. -/
theorem Differ.next_left (hne : k.base p.length ≠ keyDelimiter ∨ k.base (p.length - 1) ≠ keyDelimiter) : ∃ v, u = k.base (p.length + 1) :: v := by
  obtain ⟨hp, ha, hu⟩ := h.agrees
  have hkey : KeyBytes (p ++ a :: u) := h.left_eq ▸ h.key
  have hnil : u ≠ [] := by
    refine hkey.one_behind ?_
    rw [← ha] at hne
    rcases List.eq_nil_or_concat p with rfl | ⟨q, x, rfl⟩
    · rw [List.length_nil] at hne
      rw [List.length_nil] at ha
      rw [← ha] at hne
      exact .inl (hne.elim id id)
    · refine hne.imp_right fun hx => ⟨q, x, List.concat_eq_append, ?_⟩
      rw [List.concat_eq_append, agrees_append, agrees_cons] at hp
      rwa [List.length_concat, Nat.add_sub_cancel, ← Nat.zero_add q.length, ← hp.2.1] at hx
  cases u with
  | nil => exact absurd rfl hnil
  | cons e v =>
    rw [(agrees_cons.1 hu).1]
    exact ⟨v, rfl⟩

/-- The two bytes chosen where the right key is larger by one. -/
theorem Differ.pair (newRecGoesToRight : Bool) (hfits : p.length + 3 < k.top)
    (hdelim : k.base p.length ≠ keyDelimiter ∨ k.base (p.length - 1) ≠ keyDelimiter)
    (hmax : k.base (p.length + 1) ≠ strSubMaxval ∨ c ≠ keyDelimiter) {first newCh : UInt8}
    (heq : sepPair newRecGoesToRight k.base ⟨p.length, b, c, b⟩ = (first, newCh)) :
    KeyBetween k.bytes right (k.cut p.length (if newCh = keyDelimiter then [first] else [first, newCh])) := by
  obtain ⟨v, hu⟩ := h.next_left hdelim
  have ha := h.agrees.2.1
  have hfits' : p.length + 2 < k.top := by omega
  cases newRecGoesToRight with
  | true =>
    simp only [sepPair, if_true, Prod.mk.injEq, ← ha] at heq
    obtain ⟨rfl, rfl⟩ := heq
    by_cases he : k.base (p.length + 1) = strSubMaxval
    · -- the byte behind wraps around to a delimiter, and the byte of the right key goes before it
      rw [if_pos he, if_pos (by rw [he]; rfl)]
      exact h.cut_one hfits' h.lt (.inr ⟨rfl, hmax.resolve_left (fun hc => hc he)⟩)
    · have hlt := lt_add_one_of_ne he
      have hne : k.base (p.length + 1) + 1 ≠ keyDelimiter := by
        intro hc
        rw [hc] at hlt
        exact absurd hlt (not_lt.2 (UInt8.zero_le))
      rw [if_neg he, if_neg hne]
      exact h.cut_left hfits hu hlt
  | false =>
    simp only [sepPair, Bool.false_eq_true, if_false, Prod.mk.injEq, ← ha] at heq
    obtain ⟨rfl, rfl⟩ := heq
    by_cases hc : c = keyDelimiter
    · -- the byte behind wraps around to the largest one, and the byte of the left key stays
      subst hc
      have he := hmax.resolve_right (by simp)
      refine h.cut_left hfits hu ?_
      exact lt_of_le_of_ne (UInt8.le_iff_toNat_le.2 (Nat.le_of_lt_succ (UInt8.toNat_lt _))) he
    · split
      · exact h.cut_one hfits' h.lt (.inr ⟨rfl, hc⟩)
      · rename_i hne
        exact h.cut_right hfits (sub_one_lt_of_ne hc) hne

/-- The changed key is between the two, unless the key is left as it was. -/
theorem Differ.backoff (newRecGoesToRight : Bool) (maxKeySize : Nat) (htop : k.kend < k.top)
    {sep : KeyBuf} (heq : sepBackoff newRecGoesToRight maxKeySize k ⟨p.length, b, c, b⟩ = some sep) : KeyBetween k.bytes right sep := by
  have hself : KeyBetween k.bytes right k := by
    refine ⟨h.key, htop, le_rfl, ?_⟩
    rw [h.left_eq, h.right_eq]
    exact lt_of_split p _ _ h.lt
  have ha := h.agrees.2.1
  have hlt := UInt8.lt_iff_toNat_lt.1 h.lt
  have hb := UInt8.toNat_lt b
  simp only [sepBackoff, ← ha] at heq
  rw [if_neg (by omega)] at heq
  split at heq
  · rename_i hn
    split at heq
    · rename_i hfits
      obtain rfl := Option.some.inj heq
      refine h.cut_one hfits ?_ (.inl ?_)
      all_goals
        rw [UInt8.lt_iff_toNat_lt]
        cases newRecGoesToRight
        · simp only [Bool.false_eq_true, if_false, UInt8.toNat_add, UInt8.toNat_ofNat']
          omega
        · simp only [if_true, UInt8.toNat_add, UInt8.toNat_one]
          omega
    · exact absurd heq (by simp)
  · rename_i hn
    rw [if_pos (by omega)] at heq
    split at heq
    · rename_i hfits
      split at heq
      · rename_i hcond
        obtain ⟨hdelim, hmax, -⟩ := hcond
        have hpair := h.pair newRecGoesToRight hfits (by rwa [← ha]) hmax (Prod.mk.eta.symm)
        obtain rfl := Option.some.inj heq
        exact hpair
      · obtain rfl := Option.some.inj heq
        exact hself
    · exact absurd heq (by simp)

/-- There is a key, if the buffer has three bytes more than the left key. -/
theorem Differ.backoff_ne_none (newRecGoesToRight : Bool) (maxKeySize : Nat)
    (htop : k.kend + 3 < k.top) : sepBackoff newRecGoesToRight maxKeySize k ⟨p.length, b, c, b⟩ ≠ none := by
  have ha := h.agrees.2.1
  have hlt := UInt8.lt_iff_toNat_lt.1 h.lt
  have hlen : k.kend + 1 = p.length + (u.length + 1) := by
    have := congrArg List.length h.left_eq
    simpa [KeyBuf.bytes] using this
  simp only [sepBackoff, ← ha]
  rw [if_neg (by omega)]
  split
  · rw [if_pos (by omega)]
    simp
  · rw [if_pos (by omega), if_pos (by omega)]
    split
    · simp
    · simp

end

end

/-- The key for the parent lies between the two sides, and is found as long as the buffer has room for three bytes more than the left
key has. -/
theorem sepKey_between (newRecGoesToRight : Bool) (maxKeySize : Nat) (tempKey : KeyBuf) (right seg2 seg3 : List UInt8) (before : UInt8)
    (hleft : KeyBytes tempKey.bytes) (hright : KeyBytes right) (hlt : tempKey.bytes < right) (htop : tempKey.kend < tempKey.top)
    (hparts : RightParts tempKey.bytes right seg2 seg3) :
    (∀ sep, sepKey newRecGoesToRight maxKeySize tempKey seg2 seg3 before = some sep → KeyBetween tempKey.bytes right sep) ∧
    (tempKey.kend + 3 < tempKey.top → ∃ sep, sepKey newRecGoesToRight maxKeySize tempKey seg2 seg3 before = some sep) := by
  obtain ⟨p, u, w, a, b, c, d, h⟩ := differ_of_lt hleft hright hlt
  rw [sepKey, h.sepDiff_eq before hparts]
  constructor
  · intro sep hsep
    obtain ⟨k, hk, hsep⟩ := Option.bind_eq_some_iff.1 hsep
    have hbetween := h.backoff newRecGoesToRight maxKeySize htop hk
    rw [if_neg (keyBytes_third hbetween.key)] at hsep
    obtain rfl := Option.some.inj hsep
    exact hbetween
  · intro hroom
    obtain ⟨k, hk⟩ := Option.ne_none_iff_exists'.1 (h.backoff_ne_none newRecGoesToRight maxKeySize hroom)
    have hbetween := h.backoff newRecGoesToRight maxKeySize htop hk
    refine ⟨k, ?_⟩
    rw [hk, Option.bind_some, if_neg (keyBytes_third hbetween.key)]

/-- The last key of the left side, for the subscript 1292, in a buffer of 64 bytes. -/
def leftKey1292 : KeyBuf := { base := fun i => [65, 0, 0xC2, 0x13, 0x93, 0, 0].getD i 0xEE, kend := 6, top := 64 }

theorem sepKey_between_1292 :
    (∀ sep, sepKey false 255 leftKey1292 [65, 0, 0xC2] [0x14, 0, 0, 7] 0 = some sep →
      KeyBetween leftKey1292.bytes [65, 0, 0xC2, 0x14, 0, 0] sep) ∧
    (6 + 3 < 64 → ∃ sep, sepKey false 255 leftKey1292 [65, 0, 0xC2] [0x14, 0, 0, 7] 0 = some sep) :=
  sepKey_between false 255 leftKey1292 [65, 0, 0xC2, 0x14, 0, 0] [65, 0, 0xC2] [0x14, 0, 0, 7] 0
    ⟨65, [0, 0xC2, 0x13, 0x93], by decide, by decide, by unfold NotBothDelims; decide⟩
    ⟨65, [0, 0xC2, 0x14], by decide, by decide, by unfold NotBothDelims; decide⟩ (by decide) (by decide)
    (.inr ⟨3, [7], by decide, by decide, by decide⟩)

end Gtm
