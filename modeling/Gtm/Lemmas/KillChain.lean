import Gtm.Lemmas.KillRebuild

/-!
# The chain of new blocks

A link of the chain is the block number of a record. The chain is followed over the entries, each marked one with the place of its
link and what the link holds. Where `gvcst_kill_blk` changes a link, only the number the entry holds changes.
-/

namespace Gtm

open CommonPrefix

/-! ## Paths -/

/-- A link at a place leads to another place, or ends the chain. -/
def Leads (p : Nat × Nat) : Option Nat → Prop
  | none => p.2 = 0
  | some q => p.1 < q ∧ p.1 + p.2 = q

/-- The links lead from one to the next, and the last to the target. -/
def Path : List (Nat × Nat) → Option Nat → Prop
  | [], _ => True
  | p :: l, t => Leads p ((l.head?.map Prod.fst).or t) ∧ Path l t

theorem path_append {l l' : List (Nat × Nat)} {t : Option Nat} : Path (l ++ l') t ↔ Path l ((l'.head?.map Prod.fst).or t) ∧ Path l' t := by
  induction l with
  | nil => simp [Path]
  | cons p l ih =>
    rw [List.cons_append, Path, Path, ih, and_assoc]
    cases l <;> simp

/-- A path moves as a whole. -/
theorem path_shift (n : Nat) (l : List (Nat × Nat)) : Path (l.map fun p => (p.1 + n, p.2)) none ↔ Path l none := by
  induction l with
  | nil => simp [Path]
  | cons p l ih =>
    rw [List.map_cons, Path, Path, ih]
    cases l with
    | nil => simp [Leads]
    | cons q l =>
      simp only [List.map_cons, List.head?_cons, Option.map_some, Option.some_or, Leads]
      exact and_congr_left fun _ => by omega

variable {b : GdsBlk} {es : List Entry} {ms : List Bool} {n off : Nat} {prior : List UInt8}

theorem links_iff_path {c : List Nat} : Links b c ↔ Path (c.map fun p => (p, nextOff b p)) none := by
  induction c with
  | nil => simp [Links, Path]
  | cons p c ih =>
    cases c with
    | nil => simp [Links, Path, Leads]
    | cons q c =>
      rw [Links, ih]
      simp only [List.map_cons, Path, List.head?_cons, Option.map_some, Option.some_or, Leads, and_assoc]

/-! ## The links of entries -/

/-- What a link holds. -/
def Entry.link (e : Entry) : Nat := bytesNumber (e.val.take 2)

/-- The entry with another link. -/
def Entry.setLink (e : Entry) (v : Nat) : Entry := ⟨e.key, ushortBytes v ++ e.val.drop 2⟩

/-- The places of the marked links and what they hold. -/
def linksOf (n : Nat) : Nat → List UInt8 → List Entry → List Bool → List (Nat × Nat)
  | off, prior, e :: es, m :: ms =>
    (if m then [(off + e.size prior - n, e.link)] else []) ++ linksOf n (off + e.size prior) e.keyBytes es ms
  | _, _, _, _ => []

theorem linksOf_fst (n off : Nat) (prior : List UInt8) (es : List Entry) (ms : List Bool) :
    (linksOf n off prior es ms).map Prod.fst = slots n off prior es ms := by
  induction es generalizing off prior ms with
  | nil => simp [linksOf, slots]
  | cons e es ih =>
    cases ms with
    | nil => simp [linksOf, slots]
    | cons m ms =>
      rw [linksOf, List.map_append, ih]
      cases m <;> rfl

theorem linksOf_append {es' : List Entry} {ms' : List Bool} (hlen : ms.length = es.length) : linksOf n off prior (es ++ es') (ms ++ ms') =
      linksOf n off prior es ms ++ linksOf n (endOf off prior es) (lastKey prior es) es' ms' := by
  induction es generalizing off prior ms with
  | nil =>
    obtain rfl := List.length_eq_zero_iff.1 hlen
    rfl
  | cons e es ih =>
    cases ms with
    | nil => simp at hlen
    | cons m ms =>
      simp only [List.cons_append, linksOf, endOf, lastKey, ih (Nat.succ.inj hlen), List.append_assoc]

theorem slots_append {es' : List Entry} {ms' : List Bool} (hlen : ms.length = es.length) : slots n off prior (es ++ es') (ms ++ ms') =
      slots n off prior es ms ++ slots n (endOf off prior es) (lastKey prior es) es' ms' := by
  rw [← linksOf_fst, linksOf_append hlen, List.map_append, linksOf_fst, linksOf_fst]

/-- The bytes of a value at their place give its link. -/
theorem nextOff_of_hasBytes {p : Nat} {val : List UInt8} (h : b.HasBytes p val) (hlen : 2 ≤ val.length) :
    nextOff b p = bytesNumber (val.take 2) := by
  match val, hlen with
  | a :: c :: rest, _ =>
    obtain ⟨h1, h2⟩ := GdsBlk.hasBytes_cons.1 h
    obtain ⟨h2, -⟩ := GdsBlk.hasBytes_cons.1 h2
    simp [nextOff, GdsBlk.number, bytesNumber, h1, h2]

/-- The places and the links of marked entries are those of the block. -/
theorem linksOf_eq (hl : Laid b off prior es) (hval : ∀ e ∈ es, e.val.length = n) (hn : 2 ≤ n) (ms : List Bool) :
    linksOf n off prior es ms = (slots n off prior es ms).map fun p => (p, nextOff b p) := by
  induction es generalizing off prior ms with
  | nil => simp [linksOf, slots]
  | cons e es ih =>
    cases ms with
    | nil => simp [linksOf, slots]
    | cons m ms =>
      obtain ⟨-, -, hbytes, -, hrest⟩ := hl
      have hlen := hval e (by simp)
      have hplace : off + recHdrSize + (e.keyBytes.drop (e.cmpc prior)).length = off + e.size prior - n := by
        rw [Entry.size, Entry.data, List.length_append]
        omega
      rw [Entry.data, GdsBlk.hasBytes_append, hplace] at hbytes
      have hnext : nextOff b (off + e.size prior - n) = e.link := nextOff_of_hasBytes hbytes.2 (by omega)
      rw [linksOf, slots, ih hrest (fun e' he' => hval e' (List.mem_cons_of_mem _ he'))]
      cases m
      · rfl
      · simp [hnext]

/-- A chain through a block, over its entries. -/
theorem chain_iff_path {firstOff : Nat} (hl : Laid b off prior es) (hval : ∀ e ∈ es, e.val.length = n) (hn : 2 ≤ n) :
    Chain b firstOff (slots n off prior es ms) ↔ firstOff = (slots n off prior es ms).headD 0 ∧ Path (linksOf n off prior es ms) none := by
  rw [Chain, links_iff_path, linksOf_eq hl hval hn]

/-- The places of the links lie in their records. -/
theorem slots_bound (hval : ∀ e ∈ es, e.val.length = n) {p : Nat}
    (hp : p ∈ slots n off prior es ms) : off + recHdrSize ≤ p ∧ p + n ≤ endOf off prior es := by
  induction es generalizing off prior ms with
  | nil => simp [slots] at hp
  | cons e es ih =>
    cases ms with
    | nil => simp [slots] at hp
    | cons m ms =>
      have hlen := hval e (by simp)
      have hsize : recHdrSize + n ≤ e.size prior := by
        rw [Entry.size, Entry.data, List.length_append]
        omega
      have hge := endOf_ge (off + e.size prior) e.keyBytes es
      rw [endOf]
      rcases List.mem_append.1 hp with hp | hp
      · have hp' : p = off + e.size prior - n := by
          cases m <;> simp_all
        omega
      · have hrest := ih (fun e' he' => hval e' (List.mem_cons_of_mem _ he')) hp
        omega

theorem slots_length_le (n off : Nat) (prior : List UInt8) (es : List Entry) (ms : List Bool) :
    (slots n off prior es ms).length ≤ es.length := by
  induction es generalizing off prior ms with
  | nil => simp [slots]
  | cons e es ih =>
    cases ms with
    | nil => simp [slots]
    | cons m ms =>
      have hrest := ih (off + e.size prior) e.keyBytes ms
      rw [slots, List.length_cons]
      cases m <;> simp <;> omega

theorem length_le_endOf (off : Nat) (prior : List UInt8) (es : List Entry) : off + es.length ≤ endOf off prior es := by
  induction es generalizing off prior with
  | nil => simp [endOf]
  | cons e es ih =>
    have hrest := ih (off + e.size prior) e.keyBytes
    have hsize := e.recHdrSize_le_size prior
    rw [recHdrSize] at hsize
    rw [endOf, List.length_cons]
    omega

/-! ## Following the chain -/

section Walk

variable {b : GdsBlk} {delPtr rightPtr : Nat}

variable {l : List Nat} {p : Nat}

theorem Links.tail (h : Links b (p :: l)) : Links b l := by
  cases l with
  | nil => trivial
  | cons q l => exact h.2.2

/-- The walk goes from link to link and stops where it must. -/
theorem chainToDel_stop {xs post : List Nat} (fuel : Nat) (prev : Option Nat) (hlinks : Links b (xs ++ p :: post))
    (hxs : ∀ x ∈ xs, x < delPtr ∧ atNewStar b delPtr rightPtr x = false)
    (hstop : delPtr ≤ p ∨ nextOff b p = 0 ∨ atNewStar b delPtr rightPtr p = true) (hfuel : xs.length < fuel) :
    chainToDel b delPtr rightPtr fuel prev ((xs ++ p :: post).headD 0) = (xs.getLast?.or prev, p) := by
  induction xs generalizing prev fuel with
  | nil =>
    obtain ⟨fuel, rfl⟩ : ∃ m, fuel = m + 1 := ⟨fuel - 1, by omega⟩
    rw [List.nil_append, List.headD_cons, chainToDel, if_neg]
    · simp
    · rintro ⟨h1, h2, h3⟩
      rcases hstop with h | h | h
      · omega
      · exact h2 h
      · rw [h3] at h
        cases h
  | cons x xs ih =>
    obtain ⟨fuel, rfl⟩ : ∃ m, fuel = m + 1 := ⟨fuel - 1, by simp at hfuel; omega⟩
    obtain ⟨hx, hstar⟩ := hxs x (by simp)
    have hrest : Links b (xs ++ p :: post) := hlinks.tail
    obtain ⟨q, l, hq⟩ := List.exists_cons_of_ne_nil (show xs ++ p :: post ≠ [] by simp)
    rw [List.cons_append, hq] at hlinks
    obtain ⟨hlt, hnext, -⟩ := hlinks
    rw [List.cons_append, List.headD_cons, chainToDel, if_pos ⟨hx, by omega, hstar⟩, hnext,
      show q = (xs ++ p :: post).headD 0 by rw [hq]; rfl,
      ih _ _ hrest (fun y hy => hxs y (List.mem_cons_of_mem _ hy)) (by simp at hfuel; omega), List.getLast?_cons]
    cases xs.getLast? <;> simp

/-- The walk to the right end of the range. -/
theorem chainToRight_stop {xs post : List Nat} (fuel : Nat) (hlinks : Links b (xs ++ p :: post)) (hxs : ∀ x ∈ xs, x < rightPtr)
    (hstop : rightPtr ≤ p ∨ nextOff b p = 0) (hfuel : xs.length < fuel) : chainToRight b rightPtr fuel ((xs ++ p :: post).headD 0) = p := by
  induction xs generalizing fuel with
  | nil =>
    obtain ⟨fuel, rfl⟩ : ∃ m, fuel = m + 1 := ⟨fuel - 1, by omega⟩
    rw [List.nil_append, List.headD_cons, chainToRight, if_neg]
    rintro ⟨h1, h2⟩
    rcases hstop with h | h
    · omega
    · exact h2 h
  | cons x xs ih =>
    obtain ⟨fuel, rfl⟩ : ∃ m, fuel = m + 1 := ⟨fuel - 1, by simp at hfuel; omega⟩
    have hrest : Links b (xs ++ p :: post) := hlinks.tail
    obtain ⟨q, l, hq⟩ := List.exists_cons_of_ne_nil (show xs ++ p :: post ≠ [] by simp)
    rw [List.cons_append, hq] at hlinks
    obtain ⟨hlt, hnext, -⟩ := hlinks
    rw [List.cons_append, List.headD_cons, chainToRight, if_pos ⟨hxs x (by simp), by omega⟩, hnext,
      show q = (xs ++ p :: post).headD 0 by rw [hq]; rfl,
      ih _ hrest (fun y hy => hxs y (List.mem_cons_of_mem _ hy)) (by simp at hfuel; omega)]

theorem Links.append_right {l' : List Nat} (h : Links b (l ++ l')) : Links b l' := by
  induction l with
  | nil => exact h
  | cons p l ih => exact ih h.tail

theorem Links.last (h : Links b (l ++ [p])) : nextOff b p = 0 := h.append_right

end Walk

/-! ## Changing a link -/

variable {off v n : Nat} {e : Entry} {post es es' : List Entry} {prior : List UInt8} {ms : List Bool}

/-- Two bytes of a string of the buffer change. -/
theorem setNextOff_bytes {b : GdsBlk} {len : Nat} {u w z : List UInt8} (h : b.bytes off len = u ++ w ++ z) (hw : w.length = 2) :
    (setNextOff b (off + u.length) v).bytes off len = u ++ ushortBytes v ++ z := by
  have hlen := congrArg List.length h
  simp only [GdsBlk.length_bytes, List.length_append, hw] at hlen
  refine List.ext_getElem (by simp [ushortBytes]; omega) fun i h1 h2 => ?_
  rw [GdsBlk.getElem_bytes]
  have hi : i < len := by simpa using h1
  have hold : ∀ (hb : i < (u ++ w ++ z).length), b.byte (off + i) = (u ++ w ++ z)[i] := by
    intro hb
    simp only [← h, GdsBlk.getElem_bytes]
  simp only [setNextOff]
  rcases Nat.lt_or_ge i u.length with hlt | hge
  · rw [if_neg (by omega), if_neg (by omega), hold (by simp; omega)]
    simp [List.getElem_append_left, hlt]
  · rcases Nat.lt_or_ge i (u.length + 2) with hlt2 | hge2
    · rcases (show i = u.length ∨ i = u.length + 1 by omega) with rfl | rfl
      · simp [ushortBytes]
      · rw [if_neg (by omega), if_pos (by omega)]
        simp [ushortBytes]
    · rw [if_neg (by omega), if_neg (by omega), hold (by simp; omega)]
      rw [List.getElem_append_right (by simp; omega), List.getElem_append_right (by simp [ushortBytes]; omega)]
      simp [ushortBytes, hw]

theorem Entry.setLink_shape (h : 2 ≤ e.val.length) :
    (e.setLink v).key = e.key ∧ (e.setLink v).val.length = e.val.length ∧ (e.setLink v).val.drop 2 = e.val.drop 2 := by
  refine ⟨rfl, ?_, ?_⟩
  · simp only [Entry.setLink, List.length_append, List.length_drop, ushortBytes, List.length_cons, List.length_nil]
    omega
  · simp [Entry.setLink, ushortBytes]

theorem Entry.setLink_link (e : Entry) (hv : v < 65536) : (e.setLink v).link = v := by
  simp only [Entry.link, Entry.setLink, ushortBytes, List.cons_append, List.nil_append, List.take_succ_cons, List.take_zero, bytesNumber,
    UInt8.toNat_ofNat']
  omega

/-- The block with the link of an entry changed. -/
theorem Laid.setLink {b : GdsBlk} {pre : List Entry} (h : Laid b off prior (pre ++ e :: post)) (hval : e.val.length = n) (hn : 2 ≤ n) :
    Laid (setNextOff b (endOf off prior pre + e.size (lastKey prior pre) - n) v) off prior (pre ++ e.setLink v :: post) := by
  obtain ⟨hle, henc⟩ := laid_iff_enc.1 h
  obtain ⟨l₁, -, heq, h1, hd, rest, hlen, rfl, hrsiz, hcmpc, hrest⟩ := enc_append.1 henc
  have hend := h1.length off
  set prior' := lastKey prior pre
  have hshape := e.setLink_shape (v := v) (by omega)
  have hdata : e.data prior' = e.keyBytes.drop (e.cmpc prior') ++ (e.val.take 2 ++ e.val.drop 2) := by
    rw [List.take_append_drop]
    rfl
  have hdata' : (e.setLink v).data prior' = e.keyBytes.drop (e.cmpc prior') ++ (ushortBytes v ++ e.val.drop 2) := rfl
  have hsplit : b.bytes off (b.bsiz - off) = (l₁ ++ hd ++ e.keyBytes.drop (e.cmpc prior')) ++ e.val.take 2 ++ (e.val.drop 2 ++ rest) := by
    rw [heq, hdata]
    simp only [List.append_assoc]
  have hplace : off + (l₁ ++ hd ++ e.keyBytes.drop (e.cmpc prior')).length = endOf off prior pre + e.size prior' - n := by
    rw [Entry.size, Entry.data, List.length_append, List.length_append, List.length_append, hlen, hval]
    omega
  have hbytes := setNextOff_bytes (v := v) hsplit (by simp; omega)
  rw [hplace] at hbytes
  have hsize : (e.setLink v).size prior' = e.size prior' := by
    rw [Entry.size, Entry.size, Entry.data, Entry.data, List.length_append, List.length_append, hshape.2.1]
    rfl
  refine laid_iff_enc.2 ⟨hle, ?_⟩
  refine enc_append.2 ⟨l₁, hd ++ (e.setLink v).data prior' ++ rest, ?_, h1, hd, rest, hlen, rfl, hrsiz.trans hsize.symm, hcmpc, hrest⟩
  refine hbytes.trans ?_
  rw [hdata']
  simp only [List.append_assoc]

/-! ## Entries of the same shape -/

theorem Relinked.refl (m : Bool) (e : Entry) : Relinked m e e := ⟨rfl, rfl, rfl, fun _ => rfl⟩

theorem Relinks.refl (h : ms.length = es.length) : Relinks es ms es := by
  induction es generalizing ms with
  | nil =>
    obtain rfl := List.length_eq_zero_iff.1 h
    trivial
  | cons e es ih =>
    cases ms with
    | nil => simp at h
    | cons m ms => exact ⟨.refl m e, ih (Nat.succ.inj h)⟩

theorem Relinks.append {fs fs' : List Entry} {ns : List Bool} (h : Relinks es ms es') (h' : Relinks fs ns fs') :
    Relinks (es ++ fs) (ms ++ ns) (es' ++ fs') := by
  induction es generalizing ms es' with
  | nil =>
    match ms, es', h with
    | [], [], _ => exact h'
  | cons e es ih =>
    match ms, es', h with
    | m :: ms, e' :: es', h => exact ⟨h.1, ih h.2⟩

theorem Relinked.size_eq {m : Bool} {e' : Entry} (h : Relinked m e e') (prior : List UInt8) : e'.size prior = e.size prior := by
  simp only [Entry.size, Entry.data, List.length_append, Entry.cmpc, Entry.keyBytes, h.1, h.2.1]

theorem Relinked.keyBytes_eq {m : Bool} {e' : Entry} (h : Relinked m e e') : e'.keyBytes = e.keyBytes := by
  rw [Entry.keyBytes, Entry.keyBytes, h.1]

/-- Relinked entries lie where the others do. -/
theorem Relinks.shape (h : Relinks es ms es') (off : Nat) (prior : List UInt8) :
    endOf off prior es' = endOf off prior es ∧ lastKey prior es' = lastKey prior es ∧ es'.length = es.length := by
  induction es generalizing ms es' off prior with
  | nil =>
    match ms, es', h with
    | [], [], _ => exact ⟨rfl, rfl, rfl⟩
  | cons e es ih =>
    match ms, es', h with
    | m :: ms, e' :: es', h =>
      obtain ⟨h1, h2, h3⟩ := ih h.2 (off + e.size prior) e.keyBytes
      rw [endOf, lastKey, lastKey, h.1.size_eq, h.1.keyBytes_eq, List.length_cons, List.length_cons, h3]
      exact ⟨h1, h2, rfl⟩

theorem Relinks.slots_eq (h : Relinks es ms es') (n off : Nat) (prior : List UInt8) (ms' : List Bool) :
    slots n off prior es' ms' = slots n off prior es ms' := by
  induction es generalizing ms es' off prior ms' with
  | nil =>
    match ms, es', h with
    | [], [], _ => rfl
  | cons e es ih =>
    match ms, es', h with
    | m :: ms, e' :: es', h =>
      cases ms' with
      | nil => simp [slots]
      | cons m' ms' => rw [slots, slots, h.1.size_eq, h.1.keyBytes_eq, ih h.2]

theorem Relinks.nil_left (h : Relinks [] ms es') : es' = [] := by
  rcases ms with _ | ⟨m, ms⟩ <;> rcases es' with _ | ⟨e', es'⟩ <;> first | rfl | cases h

/-- What stands behind relinked entries stays as it is. -/
theorem Relinks.contents {level0 : Bool}
    (h : Relinks es ms es') (hc : Contents level0 n prior (es ++ post)) : Contents level0 n prior (es' ++ post) := by
  induction es generalizing ms es' prior with
  | nil =>
    obtain rfl := h.nil_left
    exact hc
  | cons e es ih =>
    rcases ms with _ | ⟨m, ms⟩
    · cases h
    rcases es' with _ | ⟨e', es'⟩
    · cases h
    cases hk : e.key with
    | none =>
      simp only [List.cons_append, Contents, h.1.1, hk, h.1.2.1] at hc ⊢
      obtain ⟨h1, h2, h3⟩ := hc
      obtain ⟨rfl, rfl⟩ := List.append_eq_nil_iff.1 h2
      obtain rfl := h.2.nil_left
      exact ⟨h1, rfl, h3⟩
    | some k =>
      simp only [List.cons_append, Contents, h.1.1, hk, h.1.2.1] at hc ⊢
      exact ⟨hc.1, hc.2.1, hc.2.2.1, ih h.2 hc.2.2.2⟩

theorem Relinks.keys (h : Relinks es ms es') : es'.map Entry.keyBytes = es.map Entry.keyBytes := by
  induction es generalizing ms es' with
  | nil =>
    match ms, es', h with
    | [], [], _ => rfl
  | cons e es ih =>
    match ms, es', h with
    | m :: ms, e' :: es', h => rw [List.map_cons, List.map_cons, h.1.keyBytes_eq, ih h.2]

/-! ## Changing the last link before the range -/

theorem linksOf_snoc (n off : Nat) (prior : List UInt8) (hlen : ms.length = es.length) (e : Entry)
    (m : Bool) : linksOf n off prior (es ++ [e]) (ms ++ [m]) =
      linksOf n off prior es ms ++ if m then [(endOf off prior es + e.size (lastKey prior es) - n, e.link)] else [] := by
  rw [linksOf_append hlen]
  simp [linksOf]

theorem exists_snoc_of_length {α β : Type} {l : List α} {l' : List β} {b : β} (h : l.length = (l' ++ [b]).length) :
    ∃ l₀ a, l = l₀ ++ [a] ∧ l₀.length = l'.length := by
  rcases List.eq_nil_or_concat l with rfl | ⟨l₀, a, rfl⟩
  · simp at h
  · exact ⟨l₀, a, List.concat_eq_append, by simpa using h⟩

/-- The last link of some entries with another number. -/
theorem relink_last {b : GdsBlk} {c : List Nat} {p : Nat}
    (hl : Laid b off prior (es ++ post)) (hval : ∀ e ∈ es, e.val.length = n) (hn : 2 ≤ n) (hlen : ms.length = es.length)
    (hslots : slots n off prior es ms = c ++ [p]) (hv : v < 65536) :
    ∃ es' l w, Relinks es ms es' ∧ Laid (setNextOff b p v) off prior (es' ++ post) ∧ linksOf n off prior es ms = l ++ [(p, w)] ∧
      linksOf n off prior es' ms = l ++ [(p, v)] := by
  induction es using List.reverseRecOn generalizing ms c post with
  | nil => simp [slots] at hslots
  | append_singleton es e ih =>
    obtain ⟨ms, m, rfl, hlen'⟩ := exists_snoc_of_length hlen
    have he : e.val.length = n := hval e (by simp)
    rw [List.append_assoc] at hl
    have hlinks := linksOf_snoc n off prior hlen' e m
    have hfst := linksOf_fst n off prior (es ++ [e]) (ms ++ [m])
    rw [hlinks, hslots, List.map_append, linksOf_fst] at hfst
    cases m with
    | true =>
      obtain ⟨-, hp⟩ := List.append_inj' hfst (by simp)
      have hp' : endOf off prior es + e.size (lastKey prior es) - n = p := by simpa using hp
      have hshape := e.setLink_shape (v := v) (by omega)
      have hsize : (e.setLink v).size (lastKey prior es) = e.size (lastKey prior es) := by
        rw [Entry.size, Entry.size, Entry.data, Entry.data, List.length_append, List.length_append, hshape.2.1]
        rfl
      refine ⟨es ++ [e.setLink v], linksOf n off prior es ms, e.link, ?_, ?_, ?_, ?_⟩
      · exact (Relinks.refl hlen').append ⟨⟨hshape.1, hshape.2.1, hshape.2.2, (by intros; rename_i h; cases h)⟩, trivial⟩
      · rw [← hp', List.append_assoc]
        exact hl.setLink he hn
      · rw [hlinks, if_pos rfl, hp']
      · rw [linksOf_snoc _ _ _ hlen', if_pos rfl, hsize, hp', Entry.setLink_link _ hv]
    | false =>
      rw [if_neg (by simp), List.map_nil, List.append_nil] at hfst
      rw [if_neg (by simp), List.append_nil] at hlinks
      obtain ⟨es', l, w, h1, h2, h3, h4⟩ := ih hl (fun e' he' => hval e' (by simp [he'])) hlen' hfst
      refine ⟨es' ++ [e], l, w, h1.append ⟨.refl _ _, trivial⟩, ?_, hlinks.trans h3, ?_⟩
      · rw [List.append_assoc]
        exact h2
      · have hlen'' : ms.length = es'.length := by rw [(h1.shape off prior).2.2, hlen']
        rw [linksOf_snoc _ _ _ hlen'', if_neg (by simp), List.append_nil, h4]

/-! ## The block with a changed chain -/

/-- The buffers differ in no more than their bytes. -/
structure SameBlk (b b' : GdsBlk) : Prop where
  bsiz : b'.bsiz = b.bsiz
  levl : b'.levl = b.levl
  longBlkId : b'.longBlkId = b.longBlkId

theorem SameBlk.refl (b : GdsBlk) : SameBlk b b := ⟨rfl, rfl, rfl⟩

section Transfer

variable {env : KillEnv} {b b' : GdsBlk} {searchKey : List UInt8} {low high : SrchRec} {rightExtra : Bool}
  {before before' gone rest : List Entry} {ms : List Bool}

theorem Relinks.snoc_inv {es es' : List Entry} {e : Entry} (h : Relinks (es ++ [e]) ms es') :
    ∃ ms₀ m es₀ e', ms = ms₀ ++ [m] ∧ es' = es₀ ++ [e'] ∧ Relinks es ms₀ es₀ ∧ Relinked m e e' := by
  induction es generalizing ms es' with
  | nil =>
    match ms, es', h with
    | m :: ms, e' :: es', h =>
      match ms, es', h.2 with
      | [], [], _ => exact ⟨[], m, [], e', rfl, rfl, trivial, h.1⟩
  | cons a es ih =>
    match ms, es', h with
    | m :: ms, a' :: es', h =>
      obtain ⟨ms₀, m', es₀, e', rfl, rfl, h1, h2⟩ := ih h.2
      exact ⟨m :: ms₀, m', a' :: es₀, e', rfl, rfl, ⟨h.1, h1⟩, h2⟩

theorem Relinks.ends_eq (h : Relinks before ms before') (gap : List Entry) :
    blkEnd (before' ++ gap) = blkEnd (before ++ gap) ∧ lastKey [] (before' ++ gap) = lastKey [] (before ++ gap) := by
  obtain ⟨hend, hlast, -⟩ := h.shape blkHdrSize []
  simp only [blkEnd, endOf_append, lastKey_append, hend, hlast, and_self]

theorem Relinks.lastOff_eq (h : Relinks before ms before') : lastOff before' = lastOff before := by
  rcases List.eq_nil_or_concat before with rfl | ⟨pre, e, rfl⟩
  · match ms, before', h with
    | [], [], _ => rfl
  · rw [List.concat_eq_append] at h ⊢
    obtain ⟨ms₀, m, pre', -, -, rfl, hpre, -⟩ := h.snoc_inv
    rw [lastOff_snoc, lastOff_snoc]
    exact (hpre.shape blkHdrSize []).1

/-- With other links the range is cut out in the same way. -/
theorem Left.relink (h : Left b searchKey low high rightExtra before gone rest) (hre : Relinks before ms before')
    (hsame : SameBlk b b') (hl : Laid b' blkHdrSize [] (before' ++ gone ++ rest)) :
    Left b' searchKey low high rightExtra before' gone rest := by
  obtain ⟨-, hlast, -⟩ := hre.shape blkHdrSize []
  have hc := h.wf.contents
  rw [List.append_assoc] at hc
  refine ⟨⟨hl, ?_, ?_⟩, ?_⟩
  · rw [hsame.levl, hsame.longBlkId, List.append_assoc]
    exact hre.contents hc
  · intro hlevl e he
    have hmem : e.keyBytes ∈ (before' ++ gone ++ rest).map Entry.keyBytes := List.mem_map_of_mem he
    rw [List.map_append, List.map_append, hre.keys, ← List.map_append, ← List.map_append] at hmem
    obtain ⟨e₀, he₀, heq⟩ := List.mem_map.1 hmem
    rw [← heq]
    exact h.wf.start (hsame.levl ▸ hlevl) e₀ he₀
  · obtain ⟨range, behind, hgone, hrest, hextra, hcut⟩ := h.cut
    refine ⟨range, behind, hgone, hrest, hextra, ?_⟩
    obtain ⟨hend', hlast'⟩ := hre.ends_eq range
    exact ⟨hcut.lowOff.trans hre.lastOff_eq.symm, hcut.highOff.trans hend'.symm, by rw [hlast, hlast']; exact hcut.shared,
      by rw [hlast']; exact hcut.supplied⟩

/-- Behind relinked entries the record headers are the same. -/
theorem headers_eq {gap post post' : List Entry} {e : Entry} (hl : Laid b blkHdrSize [] (before ++ gap ++ e :: post))
    (hl' : Laid b' blkHdrSize [] (before' ++ gap ++ e :: post')) (hre : Relinks before ms before') :
    b'.rsiz (blkEnd (before ++ gap)) = b.rsiz (blkEnd (before ++ gap)) ∧
      b'.evalCmpc (blkEnd (before ++ gap)) = b.evalCmpc (blkEnd (before ++ gap)) := by
  obtain ⟨hend, hlast⟩ := hre.ends_eq gap
  have h1 := hl.record
  have h2 := hl'.record
  rw [hend, hlast] at h2
  exact ⟨h2.1.trans h1.1.symm, h2.2.1.trans h1.2.1.symm⟩

/-- The segments for the records before the range do not depend on links. -/
theorem Left.leftSegs_eq (env : KillEnv) (h : Left b searchKey low high rightExtra before gone rest)
    (h' : Left b' searchKey low high rightExtra before' gone rest) (hre : Relinks before ms before') (hsame : SameBlk b b') (rightPtr : Nat) :
    leftSegs env b' low.offset (blkEnd before) rightPtr = leftSegs env b low.offset (blkEnd before) rightPtr := by
  obtain ⟨range, behind, -, -, -, hcut⟩ := h.cut
  rw [leftSegs, leftSegs, hsame.bsiz, hsame.levl, hsame.longBlkId]
  rcases List.eq_nil_or_concat before with rfl | ⟨pre, e, rfl⟩
  · rfl
  · rw [List.concat_eq_append] at hre hcut
    obtain ⟨ms₀, m, pre', e', -, rfl, hpre, he⟩ := hre.snoc_inv
    have hrsiz : b'.rsiz low.offset = b.rsiz low.offset := by
      have h1 := h.wf.laid
      have h2 := h'.wf.laid
      rw [List.concat_eq_append, List.append_assoc, List.append_assoc] at h1
      rw [List.append_assoc, List.append_assoc] at h2
      obtain ⟨(hend : blkEnd pre' = blkEnd pre), hlast, -⟩ := hpre.shape blkHdrSize []
      have hr := h2.record.1
      rw [hend, hlast, he.size_eq] at hr
      rw [hcut.lowOff, lastOff_snoc, hr, h1.record.1]
    rw [hrsiz]

/-- Nor do those for the records behind it. -/
theorem Left.rightSegs_eq (env : KillEnv) (h : Left b searchKey low high rightExtra before gone rest)
    (h' : Left b' searchKey low high rightExtra before' gone rest) (hre : Relinks before ms before') (hsame : SameBlk b b')
    (growth growth' : Nat × Nat × Nat) (hgrowth : growth = keyGrowth b low high rightExtra high.offset (blkEnd (before ++ gone)))
    (hgrowth' : growth' = keyGrowth b' low high rightExtra high.offset (blkEnd (before ++ gone))) :
    rightSegs env b' searchKey high.offset (blkEnd (before ++ gone)) growth' =
      rightSegs env b searchKey high.offset (blkEnd (before ++ gone)) growth := by
  obtain ⟨range, behind, hgone, hrest, -, hcut⟩ := h.cut
  cases hr : rest with
  | nil =>
    have hend : blkEnd (before ++ gone) = b.bsiz := by
      have := h.wf.laid.end_eq
      rwa [hr, List.append_nil] at this
    simp [rightSegs, hend, hsame.bsiz]
  | cons t rest' =>
    have hl := h.wf.laid
    have hl' := h'.wf.laid
    have hne : behind ≠ [] := by
      rintro rfl
      rw [hr] at hrest
      simp at hrest
    obtain ⟨t₀, behind', rfl⟩ := List.exists_cons_of_ne_nil hne
    have hsplit : gone ++ rest = range ++ t₀ :: behind' := by
      rw [hgone, hrest]
      simp
    have hhigh : b'.evalCmpc high.offset = b.evalCmpc high.offset := by
      rw [hcut.highOff]
      rw [List.append_assoc, hsplit, ← List.append_assoc] at hl hl'
      exact (headers_eq hl hl' hre).2
    rw [hr] at hl hl'
    obtain ⟨hrsiz, hcmpc⟩ := headers_eq hl hl' hre
    have heq : growth' = growth := by
      rw [hgrowth, hgrowth', keyGrowth, keyGrowth, hhigh, hcmpc]
    rw [heq, rightSegs, rightSegs, hsame.bsiz, hrsiz, hcmpc]

/-- The segments are the same. -/
theorem Left.killSegs_eq (env : KillEnv) (h : Left b searchKey low high rightExtra before gone rest)
    (h' : Left b' searchKey low high rightExtra before' gone rest) (hre : Relinks before ms before') (hsame : SameBlk b b') :
    killSegs env b' searchKey low high rightExtra (blkEnd before) (blkEnd (before ++ gone)) =
      killSegs env b searchKey low high rightExtra (blkEnd before) (blkEnd (before ++ gone)) := by
  rw [killSegs, killSegs, h.leftSegs_eq env h' hre hsame, h.rightSegs_eq env h' hre hsame _ _ rfl rfl]

end Transfer

end Gtm
