import Gtm.Lemmas.KillChain

/-!
# The repair of the chain

The links in the range are taken out of the chain of a block before it is rebuilt. The chain begins before the range, in it or
behind it, and what is behind it moves: down by the records that go, up by what the next key grows. Where the range reaches the end
of the block, the record before it becomes the star-key record, whose link moves as well.
-/

namespace Gtm

open CommonPrefix

/-! ## Moved links -/

/-- Entries moved as a whole. -/
theorem linksOf_shift {n : Nat} {es : List Entry} (hval : ∀ e ∈ es, e.val.length = n) (k off : Nat) (prior : List UInt8) (ms : List Bool) :
    linksOf n (off + k) prior es ms = (linksOf n off prior es ms).map fun p => (p.1 + k, p.2) := by
  induction es generalizing off prior ms with
  | nil => simp [linksOf]
  | cons e es ih =>
    cases ms with
    | nil => simp [linksOf]
    | cons m ms =>
      have hsize : n ≤ e.size prior := by
        rw [Entry.size, Entry.data, List.length_append, hval e (by simp)]
        omega
      have hrest := ih (fun e' he' => hval e' (List.mem_cons_of_mem _ he')) (off + e.size prior) e.keyBytes ms
      rw [linksOf, linksOf, List.map_append, ← hrest, show off + k + e.size prior = off + e.size prior + k by omega]
      cases m
      · rfl
      · simp only [if_true, List.map_cons, List.map_nil, List.cons_append, List.nil_append]
        rw [show off + e.size prior + k - n = off + e.size prior - n + k by omega]

/-- Entries moved, the first of them with another size. -/
theorem linksOf_moved {n off off' k : Nat} {prior prior' : List UInt8} {t : Entry} {rest : List Entry}
    (hval : ∀ e ∈ t :: rest, e.val.length = n) (hend : off' + t.size prior' = off + t.size prior + k) (ms : List Bool) :
    linksOf n off' prior' (t :: rest) ms = (linksOf n off prior (t :: rest) ms).map fun p => (p.1 + k, p.2) := by
  cases ms with
  | nil => simp [linksOf]
  | cons m ms =>
    have hsize : n ≤ t.size prior := by
      rw [Entry.size, Entry.data, List.length_append, hval t (by simp)]
      omega
    have hrest := linksOf_shift (fun e' he' => hval e' (List.mem_cons_of_mem _ he')) k (off + t.size prior) t.keyBytes ms
    rw [linksOf, linksOf, List.map_append, ← hrest, hend]
    cases m
    · rfl
    · simp only [if_true, List.map_cons, List.map_nil, List.cons_append, List.nil_append]
      rw [show off + t.size prior + k - n = off + t.size prior - n + k by omega]

/-! ## What the repair does -/

/-- What a repair of the chain must bring: a block that differs in links only, whose links make the chain of the records that are
left, at the places these have in the new block. -/
structure Repaired (n : Nat) (b : GdsBlk) (before gone rest : List Entry) (marks marks' : List Bool) (b' : GdsBlk) (firstOff' : Nat)
    (before' : List Entry) : Prop where
  same : SameBlk b b'
  relinks : Relinks before marks before'
  laid : Laid b' blkHdrSize [] (before' ++ gone ++ rest)
  first : firstOff' = ((linksOf n blkHdrSize [] (closeBlk false (before' ++ rest)) (marks ++ marks')).map
    Prod.fst).headD 0
  path : Path (linksOf n blkHdrSize [] (closeBlk false (before' ++ rest)) (marks ++ marks')) none

theorem two_le_sizeofBlkId (longBlkId : Bool) : 2 ≤ sizeofBlkId longBlkId := by
  cases longBlkId <;> decide

/-- A block with a range of records to delete and its chain, in the parts before, in and behind the range. -/
structure ChainParts (n : Nat) (b : GdsBlk) (before gone rest : List Entry) (mL mG mR : List Bool) (firstOff : Nat) : Prop where
  size : n = sizeofBlkId b.longBlkId
  laid : Laid b blkHdrSize [] (before ++ gone ++ rest)
  contents : Contents false n [] (before ++ gone ++ rest)
  lenL : mL.length = before.length
  lenG : mG.length = gone.length
  lenR : mR.length = rest.length
  chain : Chain b firstOff (slots n blkHdrSize [] (before ++ gone ++ rest) (mL ++ mG ++ mR))
  bsiz : b.bsiz < 65536

namespace ChainParts

variable {n : Nat} {b : GdsBlk} {before gone rest : List Entry} {mL mG mR : List Bool} {firstOff : Nat}

section
variable (h : ChainParts n b before gone rest mL mG mR firstOff)
include h

theorem two_le : 2 ≤ n := h.size ▸ two_le_sizeofBlkId _

theorem val {e : Entry} (he : e ∈ before ++ gone ++ rest) :
    e.val.length = n := h.contents.val_length he

/-- The places of the links before, in and behind the range. -/
theorem slots_eq : slots n blkHdrSize [] (before ++ gone ++ rest) (mL ++ mG ++ mR) = slots n blkHdrSize [] before mL ++
        (slots n (blkEnd before) (lastKey [] before) gone mG ++
          slots n (blkEnd (before ++ gone)) (lastKey [] (before ++ gone)) rest mR) := by
  rw [slots_append (by simp [h.lenL, h.lenG]), slots_append h.lenL, List.append_assoc]

/-- The links before the range lead to the next one. -/
theorem path_before : Path (linksOf n blkHdrSize [] before mL) (slots n (blkEnd before) (lastKey [] before) gone mG ++
        slots n (blkEnd (before ++ gone)) (lastKey [] (before ++ gone)) rest mR).head? := by
  have hpath := ((chain_iff_path h.laid (fun e he => h.val he) h.two_le).1 h.chain).2
  rw [linksOf_append (by simp [h.lenL, h.lenG]), linksOf_append h.lenL, List.append_assoc, path_append, ← List.head?_map,
    List.map_append, linksOf_fst, linksOf_fst, Option.or_none] at hpath
  exact hpath.1

/-- The links behind the range lead on from there. -/
theorem path_rest : Path (linksOf n (blkEnd (before ++ gone)) (lastKey [] (before ++ gone)) rest mR) none := by
  have hpath := ((chain_iff_path h.laid (fun e he => h.val he) h.two_le).1 h.chain).2
  rw [linksOf_append (by simp [h.lenL, h.lenG]), path_append] at hpath
  exact hpath.2

end

variable {p : Nat}

section
variable (h : ChainParts n b before gone rest mL mG mR firstOff)
include h

theorem slots_before (hp : p ∈ slots n blkHdrSize [] before mL) : blkHdrSize + recHdrSize ≤ p ∧ p + n ≤ blkEnd before :=
  slots_bound (fun e he => h.val (by simp [he])) hp

theorem slots_gone (hp : p ∈ slots n (blkEnd before) (lastKey [] before) gone mG) :
    blkEnd before + recHdrSize ≤ p ∧ p + n ≤ blkEnd (before ++ gone) := by
  rw [blkEnd_append]
  exact slots_bound (fun e he => h.val (by simp [he])) hp

theorem slots_rest (hp : p ∈ slots n (blkEnd (before ++ gone)) (lastKey [] (before ++ gone)) rest mR) :
    blkEnd (before ++ gone) + recHdrSize ≤ p ∧ p + n ≤ b.bsiz := by
  rw [← h.laid.end_eq, endOf_append _ _ (before ++ gone)]
  exact slots_bound (fun e he => h.val (by simp [he])) hp

/-- The chain is shorter than the block. -/
theorem slots_length : (slots n blkHdrSize [] (before ++ gone ++ rest) (mL ++ mG ++ mR)).length < b.bsiz := by
  have h1 := slots_length_le n blkHdrSize [] (before ++ gone ++ rest) (mL ++ mG ++ mR)
  have h2 := length_le_endOf blkHdrSize [] (before ++ gone ++ rest)
  rw [h.laid.end_eq, blkHdrSize] at h2
  omega

end

theorem delPtr_le (before gone : List Entry) : blkEnd before ≤ blkEnd (before ++ gone) := by
  rw [blkEnd_append]
  exact endOf_ge _ _ _

/-- A path to the last link before the range, which may get another number. -/
theorem relink (h : ChainParts n b before gone rest mL mG mR firstOff) {c : List Nat} {v : Nat}
    (hslots : slots n blkHdrSize [] before mL = c ++ [p]) (hv : v < 65536) :
    ∃ before' l, Relinks before mL before' ∧ Laid (setNextOff b p v) blkHdrSize [] (before' ++ gone ++ rest) ∧
      linksOf n blkHdrSize [] before' mL = l ++ [(p, v)] ∧ Path l (some p) := by
  have hl := h.laid
  rw [List.append_assoc] at hl
  obtain ⟨before', l, w, h1, h2, h3, h4⟩ := relink_last hl (fun e he => h.val (by simp [he])) h.two_le h.lenL hslots hv
  have hpath := h.path_before
  rw [h3, path_append] at hpath
  refine ⟨before', l, h1, ?_, h4, hpath.1⟩
  rw [List.append_assoc]
  exact h2

section Fix

variable (h : ChainParts n b before gone rest mL mG mR firstOff)
  (hstar : ∀ p ∈ slots n blkHdrSize [] before mL,
    atNewStar b (blkEnd before) (blkEnd (before ++ gone)) p = false)

include h hstar

/-- No link in the range or behind it. -/
theorem fixChain_none (hfirst : firstOff ≠ 0) (hG : slots n (blkEnd before) (lastKey [] before) gone mG = [])
    (hR : slots n (blkEnd (before ++ gone)) (lastKey [] (before ++ gone)) rest mR = []) (leftPtr shrink : Nat) :
    fixChain b leftPtr (blkEnd before) (blkEnd (before ++ gone)) shrink firstOff = (b, firstOff) := by
  obtain ⟨hhead, hlinks⟩ := h.chain
  have hlen := h.slots_length
  rw [h.slots_eq, hG, hR, List.append_nil, List.append_nil] at hhead hlinks hlen
  rcases List.eq_nil_or_concat (slots n blkHdrSize [] before mL) with hnil | ⟨c, p, hp⟩
  · rw [hnil] at hhead
    exact absurd hhead hfirst
  · rw [List.concat_eq_append] at hp
    rw [hp] at hhead hlinks hlen hstar
    have hbound := h.slots_before (p := p) (by simp [hp])
    have hn := h.two_le
    have hwalk := chainToDel_stop b.bsiz none hlinks
      (fun x hx => ⟨by have := (h.slots_before (p := x) (by simp [hp, hx])).2; omega, hstar x (by simp [hx])⟩)
      (.inr (.inl hlinks.last)) (by simp at hlen; omega)
    rw [← hhead] at hwalk
    simp only [fixChain, hwalk, hstar p (by simp)]
    rw [if_neg (by simp), if_neg (by omega)]

variable {c : List Nat} {q : Nat}

/-- The walk comes to the first link that is not before the range, and goes on from there. -/
theorem fixChain_walk
    (hq : slots n (blkEnd before) (lastKey [] before) gone mG ++
      slots n (blkEnd (before ++ gone)) (lastKey [] (before ++ gone)) rest mR = q :: c)
    (leftPtr shrink : Nat) :
    fixChain b leftPtr (blkEnd before) (blkEnd (before ++ gone)) shrink firstOff =
      let curr := chainToRight b (blkEnd (before ++ gone)) b.bsiz q
      let prev := (slots n blkHdrSize [] before mL).getLast?
      if curr < blkEnd (before ++ gone) then
        match prev with
        | some p => (setNextOff b p 0, firstOff)
        | none => (b, 0)
      else
        match prev with
        | some p =>
          (setNextOff b p (curr - p - (blkEnd (before ++ gone) - blkEnd before) + shrink), firstOff)
        | none => (b, curr - (blkEnd (before ++ gone) - blkEnd before) + shrink) := by
  obtain ⟨hhead, hlinks⟩ := h.chain
  have hlen := h.slots_length
  rw [h.slots_eq, hq] at hhead hlinks hlen
  have hn := h.two_le
  have hdel : blkEnd before < q := by
    have hmem : q ∈ slots n (blkEnd before) (lastKey [] before) gone mG ++
      slots n (blkEnd (before ++ gone)) (lastKey [] (before ++ gone)) rest mR := by simp [hq]
    have hle := delPtr_le before gone
    rcases List.mem_append.1 hmem with hmem | hmem
    · have := h.slots_gone hmem
      rw [recHdrSize] at this
      omega
    · have := (h.slots_rest hmem).1
      rw [recHdrSize] at this
      omega
  have hwalk := chainToDel_stop b.bsiz none hlinks
    (fun x hx => ⟨by have := (h.slots_before hx).2; omega, hstar x hx⟩) (.inl hdel.le) (by simp at hlen; omega)
  rw [← hhead] at hwalk
  have hq' : atNewStar b (blkEnd before) (blkEnd (before ++ gone)) q = false := by
    rw [atNewStar, Bool.and_eq_false_iff]
    right
    exact decide_eq_false (by omega)
  simp only [fixChain, hwalk, hq', Option.or_none]
  exact (if_neg (by simp)).trans (if_pos hdel.le)

/-- All links from the range on are in the range. -/
theorem fixChain_end
    (hG : slots n (blkEnd before) (lastKey [] before) gone mG = c ++ [q])
    (hR : slots n (blkEnd (before ++ gone)) (lastKey [] (before ++ gone)) rest mR = [])
    (leftPtr shrink : Nat) :
    fixChain b leftPtr (blkEnd before) (blkEnd (before ++ gone)) shrink firstOff = match (slots n blkHdrSize [] before mL).getLast? with
      | some p => (setNextOff b p 0, firstOff)
      | none => (b, 0) := by
  have hlinks := h.chain.2
  have hlen := h.slots_length
  rw [h.slots_eq, hR, List.append_nil, hG] at hlinks hlen
  have hlinks := hlinks.append_right
  have hn := h.two_le
  have hcurr : chainToRight b (blkEnd (before ++ gone)) b.bsiz ((c ++ [q]).headD 0) = q :=
    chainToRight_stop _ hlinks (fun x hx => by have := h.slots_gone (p := x) (by simp [hG, hx]); omega) (.inr hlinks.last)
      (by simp at hlen; omega)
  obtain ⟨q', c', hq'⟩ := List.exists_cons_of_ne_nil (show c ++ [q] ≠ [] by simp)
  rw [hq', List.headD_cons] at hcurr
  have hlt : q < blkEnd (before ++ gone) := by
    have := h.slots_gone (p := q) (by simp [hG])
    omega
  rw [h.fixChain_walk hstar (q := q') (c := c') (by rw [hR, List.append_nil, hG, hq'])]
  simp only [hcurr]
  rw [if_pos hlt]

/-- Some links are behind the range. -/
theorem fixChain_stitch
    (hR : slots n (blkEnd (before ++ gone)) (lastKey [] (before ++ gone)) rest mR = q :: c)
    (leftPtr shrink : Nat) :
    fixChain b leftPtr (blkEnd before) (blkEnd (before ++ gone)) shrink firstOff = match (slots n blkHdrSize [] before mL).getLast? with
      | some p =>
        (setNextOff b p (q - p - (blkEnd (before ++ gone) - blkEnd before) + shrink), firstOff)
      | none => (b, q - (blkEnd (before ++ gone) - blkEnd before) + shrink) := by
  have hlinks := h.chain.2
  have hlen := h.slots_length
  rw [h.slots_eq, hR] at hlinks hlen
  have hlinks := hlinks.append_right
  have hge : blkEnd (before ++ gone) ≤ q := by
    have := (h.slots_rest (p := q) (by simp [hR])).1
    omega
  have hn := h.two_le
  have hcurr := chainToRight_stop b.bsiz hlinks (fun x hx => by have := h.slots_gone hx; omega) (.inl hge)
    (by simp at hlen; omega)
  obtain ⟨q', c', hq'⟩ := List.exists_cons_of_ne_nil
    (show slots n (blkEnd before) (lastKey [] before) gone mG ++ q :: c ≠ [] by simp)
  rw [hq', List.headD_cons] at hcurr
  rw [h.fixChain_walk hstar (q := q') (c := c') (by rw [hR, hq'])]
  simp only [hcurr]
  rw [if_neg (by omega)]

end Fix

section Repair

variable (h : ChainParts n b before gone rest mL mG mR firstOff) {k : Nat}
  (hstar : ∀ p ∈ slots n blkHdrSize [] before mL,
    atNewStar b (blkEnd before) (blkEnd (before ++ gone)) p = false)
  (hclosed : ∀ before', Relinks before mL before' →
    linksOf n blkHdrSize [] (closeBlk false (before' ++ rest)) (mL ++ mR) =
      linksOf n blkHdrSize [] before' mL ++
        linksOf n (blkEnd before) (lastKey [] before) rest mR)
  (hmoved : linksOf n (blkEnd (before ++ gone)) (lastKey [] (before ++ gone)) rest mR =
    (linksOf n (blkEnd before) (lastKey [] before) rest mR).map fun p => (p.1 + k, p.2))

include h hstar hclosed hmoved

variable {shrink : Nat}

/-- The repair of a chain that starts in the range or behind it. -/
theorem repair_first (hfirst : firstOff ≠ 0) (hnil : slots n blkHdrSize [] before mL = [])
    (hk : k + shrink = blkEnd (before ++ gone) - blkEnd before) (leftPtr : Nat) : ∃ firstOff',
      fixChain b leftPtr (blkEnd before) (blkEnd (before ++ gone)) shrink firstOff = (b, firstOff') ∧
      Repaired n b before gone rest mL mR b firstOff' before := by
  have hpathR := h.path_rest
  rw [hmoved, path_shift] at hpathR
  have hsR := linksOf_fst n (blkEnd (before ++ gone)) (lastKey [] (before ++ gone)) rest mR
  rw [hmoved] at hsR
  have hsL := linksOf_fst n blkHdrSize [] before mL
  rw [hnil, List.map_eq_nil_iff] at hsL
  have hre : Relinks before mL before := .refl h.lenL
  have hnew := hclosed before hre
  rw [hsL] at hnew
  cases hl : linksOf n (blkEnd before) (lastKey [] before) rest mR with
  | nil =>
    rw [hl] at hsR hnew
    rcases List.eq_nil_or_concat
      (slots n (blkEnd before) (lastKey [] before) gone mG) with hG | ⟨c, q, hG⟩
    · have hhead := h.chain.1
      rw [h.slots_eq, hnil, hG, ← hsR] at hhead
      exact absurd hhead hfirst
    · rw [List.concat_eq_append] at hG
      refine ⟨0, ?_, .refl b, hre, h.laid, by rw [hnew]; rfl, by rw [hnew]; trivial⟩
      rw [h.fixChain_end hstar hG hsR.symm, hnil]
      rfl
  | cons r l =>
    rw [hl] at hsR hnew hpathR
    refine ⟨r.1, ?_, .refl b, hre, h.laid, by rw [hnew]; rfl, by rw [hnew]; exact hpathR⟩
    have hge := (h.slots_rest (p := r.1 + k) (by simp [← hsR])).1
    rw [h.fixChain_stitch hstar hsR.symm, hnil]
    simp only [List.getLast?_nil, Function.comp_apply, Prod.mk.injEq, true_and]
    omega

/-- The repair of a chain with a link before the range. -/
theorem repair_next {c : List Nat} {p : Nat} (hp : slots n blkHdrSize [] before mL = c ++ [p])
    (hk : k + shrink = blkEnd (before ++ gone) - blkEnd before) (leftPtr : Nat) : ∃ b' before',
      fixChain b leftPtr (blkEnd before) (blkEnd (before ++ gone)) shrink firstOff = (b', firstOff) ∧
      Repaired n b before gone rest mL mR b' firstOff before' := by
  have hpathR := h.path_rest
  rw [hmoved, path_shift] at hpathR
  have hsR := linksOf_fst n (blkEnd (before ++ gone)) (lastKey [] (before ++ gone)) rest mR
  rw [hmoved] at hsR
  have hlast : (slots n blkHdrSize [] before mL).getLast? = some p := by simp [hp]
  have hbound := (h.slots_before (p := p) (by simp [hp])).2
  have hhead := h.chain.1
  rw [h.slots_eq] at hhead
  -- the first link stays the first
  have hkeep : ∀ {before' : List Entry}, Relinks before mL before' → firstOff =
      ((linksOf n blkHdrSize [] (closeBlk false (before' ++ rest)) (mL ++ mR)).map Prod.fst).headD 0 := by
    intro before' hre
    rw [hclosed before' hre, List.map_append, linksOf_fst, hre.slots_eq, hhead, hp]
    cases c <;> rfl
  have hfirst : firstOff ≠ 0 := by
    have hmem : firstOff ∈ slots n blkHdrSize [] before mL := by
      rw [hhead, hp]
      cases c <;> simp
    have hge := (h.slots_before hmem).1
    rw [blkHdrSize] at hge
    omega
  cases hl : linksOf n (blkEnd before) (lastKey [] before) rest mR with
  | nil =>
    rw [hl] at hsR hclosed
    rcases List.eq_nil_or_concat
      (slots n (blkEnd before) (lastKey [] before) gone mG) with hG | ⟨c', q, hG⟩
    · -- the chain ends before the range
      have hpathL := h.path_before
      rw [hG, ← hsR] at hpathL
      have hre : Relinks before mL before := .refl h.lenL
      refine ⟨b, before, h.fixChain_none hstar hfirst hG hsR.symm _ _, .refl b, hre, h.laid, hkeep hre, ?_⟩
      rw [hclosed before hre, List.append_nil]
      exact hpathL
    · -- its end is in the range
      rw [List.concat_eq_append] at hG
      obtain ⟨before', l, hre, hlaid, hlinks, hpath⟩ := h.relink hp (show 0 < 65536 by omega)
      refine ⟨setNextOff b p 0, before', ?_, ⟨rfl, rfl, rfl⟩, hre, hlaid, hkeep hre, ?_⟩
      · rw [h.fixChain_end hstar hG hsR.symm, hlast]
      · rw [hclosed before' hre, hlinks, List.append_nil, path_append]
        exact ⟨hpath, rfl, trivial⟩
  | cons r l' =>
    -- it goes on behind the range
    rw [hl] at hsR hclosed hpathR
    have hr := h.slots_rest (p := r.1 + k) (by simp [← hsR])
    have hle := delPtr_le before gone
    have hsz := h.bsiz
    rw [recHdrSize] at hr
    obtain ⟨before', l, hre, hlaid, hlinks, hpath⟩ := h.relink hp (show r.1 - p < 65536 by omega)
    have hv : r.1 + k - p - (blkEnd (before ++ gone) - blkEnd before) + shrink = r.1 - p := by omega
    refine ⟨setNextOff b p (r.1 - p), before', ?_, ⟨rfl, rfl, rfl⟩, hre, hlaid, hkeep hre, ?_⟩
    · rw [h.fixChain_stitch hstar hsR.symm, hlast]
      simp only [Function.comp_apply, hv]
    · rw [hclosed before' hre, hlinks, path_append, path_append]
      refine ⟨⟨hpath, ⟨?_, ?_⟩, trivial⟩, hpathR⟩
      · show p < r.1
        omega
      · show p + (r.1 - p) = r.1
        omega

/-- The repair where no record becomes the star-key record. -/
theorem repair_inner (hfirst : firstOff ≠ 0)
    (hk : k + shrink = blkEnd (before ++ gone) - blkEnd before) (leftPtr : Nat) : ∃ b' firstOff' before',
      fixChain b leftPtr (blkEnd before) (blkEnd (before ++ gone)) shrink firstOff = (b', firstOff') ∧
      Repaired n b before gone rest mL mR b' firstOff' before' := by
  rcases List.eq_nil_or_concat (slots n blkHdrSize [] before mL) with hnil | ⟨c, p, hp⟩
  · obtain ⟨firstOff', h1, h2⟩ := h.repair_first hstar hclosed hmoved hfirst hnil hk leftPtr
    exact ⟨b, firstOff', before, h1, h2⟩
  · rw [List.concat_eq_append] at hp
    obtain ⟨b', before', h1, h2⟩ := h.repair_next hstar hclosed hmoved hp hk leftPtr
    exact ⟨b', firstOff, before', h1, h2⟩

end Repair

variable {e : Entry} {ms : List Bool} {pre : List Entry}

/-- The links of a block that ends with a new star entry. -/
theorem linksOf_star (hlen : ms.length = pre.length)
    (hval : e.val.length = n) (m : Bool) :
    linksOf n blkHdrSize [] (closeBlk false (pre ++ [e])) (ms ++ [m]) =
      linksOf n blkHdrSize [] pre ms ++ if m then [(blkEnd pre + recHdrSize, e.link)] else [] := by
  have hsize : (⟨none, e.val⟩ : Entry).size (lastKey [] pre) = recHdrSize + n := by simp [Entry.size, Entry.data, Entry.keyBytes, hval]
  rw [closeBlk, if_neg (by simp), starLast_snoc, linksOf_snoc _ _ _ hlen, hsize, ← Nat.add_assoc, Nat.add_sub_cancel]
  rfl

/-- The repair where the link before the range is that of the new star-key record. -/
theorem repair_star (h : ChainParts n b (pre ++ [e]) gone [] (ms ++ [true]) mG mR firstOff) (shrink : Nat) : ∃ b' firstOff' before',
      fixChain b (blkEnd pre) (blkEnd (pre ++ [e])) (blkEnd (pre ++ [e] ++ gone)) shrink firstOff =
        (b', firstOff') ∧ Repaired n b (pre ++ [e]) gone [] (ms ++ [true]) mR b' firstOff' before' := by
  have hms : ms.length = pre.length := by simpa using h.lenL
  obtain rfl : mR = [] := List.length_eq_zero_iff.1 h.lenR
  have hval : e.val.length = n := h.val (by simp)
  have hn := h.two_le
  have hsz := h.bsiz
  set p := blkEnd pre + e.size (lastKey [] pre) - n with hpdef
  have hsize : recHdrSize + n ≤ e.size (lastKey [] pre) := by
    rw [Entry.size, Entry.data, List.length_append]
    omega
  have hdel : blkEnd (pre ++ [e]) = p + n := by
    rw [blkEnd_snoc]
    omega
  have hright : blkEnd (pre ++ [e] ++ gone) = b.bsiz := by
    have := h.laid.end_eq
    rwa [List.append_nil] at this
  have hslots : slots n blkHdrSize [] (pre ++ [e]) (ms ++ [true]) = slots n blkHdrSize [] pre ms ++ [p] := by
    rw [← linksOf_fst, linksOf_snoc _ _ _ hms, List.map_append, linksOf_fst]
    rfl
  have hpre : ∀ x ∈ slots n blkHdrSize [] pre ms, blkHdrSize + recHdrSize ≤ x ∧ x + n ≤ blkEnd pre :=
    fun x hx => slots_bound (fun e he => h.val (by simp [he])) hx
  have hatStar : atNewStar b (blkEnd (pre ++ [e])) (blkEnd (pre ++ [e] ++ gone)) p = true := by
    rw [atNewStar, hright, hdel, ← h.size]
    simp
  -- the walk stops at the new star-key record
  obtain ⟨hhead, hlinks⟩ := h.chain
  have hlen := h.slots_length
  rw [h.slots_eq, hslots, List.append_assoc, List.singleton_append] at hhead hlinks hlen
  have hwalk := chainToDel_stop b.bsiz none hlinks
    (fun x hx => ⟨by have := hpre x hx; omega, by
      have := hpre x hx
      rw [atNewStar, ← h.size, Bool.and_eq_false_iff]
      right
      exact decide_eq_false (by omega)⟩) (.inr (.inr hatStar)) (by simp at hlen; omega)
  rw [← hhead] at hwalk
  -- the star entry ends the chain
  have hl : Laid b blkHdrSize [] (pre ++ e :: gone) := by simpa using h.laid
  have hl0 := hl.setLink (v := 0) hval hn
  have hshape := e.setLink_shape (v := 0) (by omega)
  have hre0 : Relinks [e] [true] [e.setLink 0] := ⟨⟨hshape.1, hshape.2.1, hshape.2.2, (by intros; rename_i h; cases h)⟩, trivial⟩
  have hlink0 : (e.setLink 0).link = 0 := e.setLink_link (by omega)
  simp only [fixChain, hwalk, hatStar, if_true]
  rcases List.eq_nil_or_concat (slots n blkHdrSize [] pre ms) with hnil | ⟨c, q, hq⟩
  · have hempty : linksOf n blkHdrSize [] pre ms = [] := by
      rw [← List.map_eq_nil_iff, linksOf_fst, hnil]
    have hnew := linksOf_star hms (show (e.setLink 0).val.length = n by rw [hshape.2.1, hval]) true
    rw [hempty, List.nil_append, if_pos rfl] at hnew
    rw [hnil]
    refine ⟨_, _, pre ++ [e.setLink 0], rfl, ⟨rfl, rfl, rfl⟩, (Relinks.refl hms).append hre0, by simpa using hl0, ?_, ?_⟩
    · rw [List.append_nil, List.append_nil, hnew]
      rfl
    · rw [List.append_nil, List.append_nil, hnew]
      exact ⟨rfl, trivial⟩
  · rw [List.concat_eq_append] at hq
    have hqb := hpre q (by simp [hq])
    have hend : blkEnd pre ≤ b.bsiz := hl.append.off_le
    obtain ⟨pre', l, w, hre, hlaid, hw, hw'⟩ := relink_last hl0 (fun e he => h.val (by simp [he])) hn hms hq
      (show blkEnd pre + recHdrSize - q < 65536 by omega)
    obtain ⟨(hend' : blkEnd pre' = blkEnd pre), -, hlen'⟩ := hre.shape blkHdrSize []
    have hnew := linksOf_star (hms.trans hlen'.symm) (show (e.setLink 0).val.length = n by rw [hshape.2.1, hval]) true
    rw [hw', hend', if_pos rfl] at hnew
    have hpathL := h.path_before
    rw [linksOf_snoc _ _ _ hms, path_append, hw, path_append] at hpathL
    rw [hq, List.getLast?_concat]
    refine ⟨_, _, pre' ++ [e.setLink 0], rfl, ⟨rfl, rfl, rfl⟩, hre.append hre0, by simpa using hlaid, ?_, ?_⟩
    · rw [List.append_nil, List.append_nil, hnew, hhead, List.map_append, ← hw', linksOf_fst, hre.slots_eq, hq]
      cases c <;> rfl
    · rw [List.append_nil, List.append_nil, hnew, path_append, path_append]
      refine ⟨⟨hpathL.1.1, ⟨?_, ?_⟩, trivial⟩, rfl, trivial⟩
      · show q < blkEnd pre + recHdrSize
        omega
      · show q + (blkEnd pre + recHdrSize - q) = blkEnd pre + recHdrSize
        omega

/-- The repair where records are left behind the range. -/
theorem repair_rest {t : Entry} (h : ChainParts n b before gone (t :: rest) mL mG mR firstOff) (hfirst : firstOff ≠ 0) (leftPtr : Nat) :
    ∃ b' firstOff' before', fixChain b leftPtr (blkEnd before) (blkEnd (before ++ gone))
        (t.cmpc (lastKey [] (before ++ gone)) - t.cmpc (lastKey [] before)) firstOff = (b', firstOff') ∧
      Repaired n b before gone (t :: rest) mL mR b' firstOff' before' := by
  obtain ⟨-, hle, hshift⟩ := h.contents.end_shift
  refine h.repair_inner ?_ ?_
    (linksOf_moved (fun e he => h.val (by simp at he ⊢; tauto)) hshift.symm mR) hfirst (by omega) leftPtr
  · intro p _
    have hlt := h.laid.append.off_lt (by simp)
    rw [atNewStar, decide_eq_false hlt.ne, Bool.false_and]
  · intro before' hre
    have hc := h.contents.skip (.inl (by simp))
    obtain ⟨hend, hlast, hlen⟩ := hre.shape blkHdrSize []
    rw [(hre.contents hc).closeBlk_eq, linksOf_append (h.lenL.trans hlen.symm), hend, hlast]

/-- The repair where the range reaches the end of the block and the new star-key record has no link. -/
theorem repair_unmarked (h : ChainParts n b (pre ++ [e]) gone [] (ms ++ [false]) mG mR firstOff) (hfirst : firstOff ≠ 0) (leftPtr : Nat) :
    ∃ b' firstOff' before', fixChain b leftPtr (blkEnd (pre ++ [e])) (blkEnd (pre ++ [e] ++ gone)) 0 firstOff = (b', firstOff') ∧
      Repaired n b (pre ++ [e]) gone [] (ms ++ [false]) mR b' firstOff' before' := by
  have hms : ms.length = pre.length := by simpa using h.lenL
  obtain rfl : mR = [] := List.length_eq_zero_iff.1 h.lenR
  refine h.repair_inner ?_ ?_ (by simp [linksOf]) hfirst (Nat.add_zero _) leftPtr
  · intro p hp
    rw [← linksOf_fst, linksOf_snoc _ _ _ hms, List.map_append, linksOf_fst, if_neg (by simp), List.map_nil, List.append_nil] at hp
    have hbound : p + n ≤ blkEnd pre := (slots_bound (fun e' he' => h.val (by simp [he'])) hp).2
    have hsize := e.recHdrSize_le_size (lastKey [] pre)
    rw [recHdrSize] at hsize
    rw [atNewStar, ← h.size, Bool.and_eq_false_iff, blkEnd_snoc]
    right
    exact decide_eq_false (by omega)
  · intro before' hre
    obtain ⟨ms₀, m, pre', e', heq, rfl, hpre, he⟩ := hre.snoc_inv
    obtain ⟨rfl, -⟩ := List.append_inj' heq rfl
    obtain ⟨-, -, hlen⟩ := hpre.shape blkHdrSize []
    have hlen' : ms.length = pre'.length := hms.trans hlen.symm
    have hval : e'.val.length = n := by rw [he.2.1, h.val (by simp)]
    rw [List.append_nil, List.append_nil, linksOf_star hlen' hval, linksOf_snoc _ _ _ hlen']
    simp [linksOf]

/-- The repair of the chain, for every range that leaves records. -/
theorem repair (h : ChainParts n b before gone rest mL mG mR firstOff) (hfirst : firstOff ≠ 0) (hleft : before ++ rest ≠ []) {shrink : Nat}
    (hnil : rest = [] → shrink = 0)
    (hcons : ∀ t r, rest = t :: r → shrink = t.cmpc (lastKey [] (before ++ gone)) - t.cmpc (lastKey [] before)) : ∃ b' firstOff' before',
      fixChain b (lastOff before) (blkEnd before) (blkEnd (before ++ gone)) shrink firstOff = (b', firstOff') ∧
      Repaired n b before gone rest mL mR b' firstOff' before' := by
  cases rest with
  | cons t r =>
    rw [hcons t r rfl]
    exact h.repair_rest hfirst _
  | nil =>
    rw [hnil rfl]
    rcases List.eq_nil_or_concat before with rfl | ⟨pre, e, rfl⟩
    · simp at hleft
    · rw [List.concat_eq_append] at h ⊢
      obtain ⟨ms, m, rfl, -⟩ := exists_snoc_of_length h.lenL
      rw [lastOff_snoc]
      cases m with
      | true => exact h.repair_star 0
      | false => exact h.repair_unmarked hfirst _

end ChainParts

end Gtm
