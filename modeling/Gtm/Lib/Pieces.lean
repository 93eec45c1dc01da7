import Mathlib

/-!
# Pieces of a list

A list is cut at the first occurrence of a delimiter, and again behind it. The pieces between the delimiters, joined by them, are the
list.
-/

namespace Pieces

variable {α : Type*} [DecidableEq α] (d : List α)

/-- What is before the first occurrence of the delimiter, and what is behind it. -/
def cut : List α → Option (List α × List α)
  | [] => if d = [] then some ([], []) else none
  | a :: s => if d <+: a :: s then some ([], (a :: s).drop d.length) else (cut s).map fun r => (a :: r.1, r.2)

/-- The pieces of a list, of at most so many cuts. -/
def piecesUpTo : Nat → List α → List (List α)
  | 0, s => [s]
  | n + 1, s =>
    match cut d s with
    | none => [s]
    | some (u, v) => u :: piecesUpTo n v

/-- The pieces of a list. -/
def pieces (s : List α) : List (List α) := piecesUpTo d s.length s

/-- What is behind some delimiters. -/
def skip : Nat → List α → Option (List α)
  | 0, s => some s
  | n + 1, s => (cut d s).bind fun r => skip n r.2

variable {d}

theorem cut_eq {s u v : List α} (h : cut d s = some (u, v)) : s = u ++ (d ++ v) := by
  induction s generalizing u with
  | nil =>
    rw [cut] at h
    split at h
    · next hd =>
      obtain ⟨rfl, rfl⟩ := Prod.mk.inj (Option.some.inj h)
      simp [hd]
    · exact absurd h (by simp)
  | cons a s ih =>
    rw [cut] at h
    split at h
    · next hd =>
      obtain ⟨rfl, rfl⟩ := Prod.mk.inj (Option.some.inj h)
      obtain ⟨t, ht⟩ := hd
      rw [← ht, List.drop_left, List.nil_append]
    · obtain ⟨r, hr, heq⟩ := Option.map_eq_some_iff.1 h
      obtain ⟨rfl, rfl⟩ := Prod.mk.inj heq
      rw [List.cons_append, ← ih hr]

theorem cut_length {s u v : List α} (h : cut d s = some (u, v)) : s.length = u.length + d.length + v.length := by
  rw [cut_eq h, List.length_append, List.length_append, Nat.add_assoc]

/-- A list that starts with the delimiter. -/
theorem cut_append (hd : d ≠ []) (v : List α) : cut d (d ++ v) = some ([], v) := by
  obtain ⟨a, t, rfl⟩ := List.exists_cons_of_ne_nil hd
  have hpre : a :: t <+: a :: (t ++ v) := List.prefix_append (a :: t) v
  rw [List.cons_append, cut, if_pos hpre, ← List.cons_append, List.drop_left]

theorem cut_cons {a : α} {s : List α} (h : ¬d <+: a :: s) : cut d (a :: s) = (cut d s).map fun r => (a :: r.1, r.2) := if_neg h

/-- In a list that is too short there is no delimiter. -/
theorem cut_of_short {s : List α} (h : s.length < d.length) : cut d s = none := by
  cases hc : cut d s with
  | none => rfl
  | some r =>
    have := cut_length (u := r.1) (v := r.2) hc
    omega

theorem piecesUpTo_eq (hd : d ≠ []) {n m : Nat} {s : List α} (hn : s.length ≤ n) (hm : s.length ≤ m) :
    piecesUpTo d n s = piecesUpTo d m s := by
  have hpos := List.length_pos_of_ne_nil hd
  have hnil : cut d [] = none := by rw [cut, if_neg hd]
  induction n generalizing m s with
  | zero =>
    obtain rfl := List.length_eq_zero_iff.1 (Nat.le_zero.1 hn)
    cases m with
    | zero => rfl
    | succ m => rw [piecesUpTo, piecesUpTo, hnil]
  | succ n ih =>
    cases m with
    | zero =>
      obtain rfl := List.length_eq_zero_iff.1 (Nat.le_zero.1 hm)
      rw [piecesUpTo, piecesUpTo, hnil]
    | succ m =>
      rw [piecesUpTo, piecesUpTo]
      cases hc : cut d s with
      | none => rfl
      | some r =>
        have := cut_length (u := r.1) (v := r.2) hc
        have heq := @ih m r.2 (by omega) (by omega)
        simp only [heq]

/-- The first piece, and those of the rest. -/
theorem pieces_eq (hd : d ≠ []) (s : List α) :
    pieces d s = match cut d s with
      | none => [s]
      | some (u, v) => u :: pieces d v := by
  rw [pieces, piecesUpTo_eq hd (Nat.le_refl _) (Nat.le_succ _), piecesUpTo]
  cases hc : cut d s with
  | none => rfl
  | some r =>
    have := cut_length (u := r.1) (v := r.2) hc
    have heq := piecesUpTo_eq hd (show r.2.length ≤ s.length by omega) (Nat.le_refl _)
    simp only [pieces, heq]

theorem pieces_of_none (hd : d ≠ []) {s : List α} (h : cut d s = none) : pieces d s = [s] := by rw [pieces_eq hd, h]

theorem pieces_of_some (hd : d ≠ []) {s u v : List α} (h : cut d s = some (u, v)) : pieces d s = u :: pieces d v := by
  rw [pieces_eq hd, h]

theorem pieces_ne_nil (d s : List α) : pieces d s ≠ [] := by
  rw [pieces]
  cases s.length with
  | zero => simp [piecesUpTo]
  | succ n =>
    rw [piecesUpTo]
    split <;> simp

/-- The pieces with the delimiters between them. -/
theorem join_pieces (hd : d ≠ []) (s : List α) : d.intercalate (pieces d s) = s := by
  induction hn : s.length using Nat.strong_induction_on generalizing s with
  | _ n ih =>
    have hpos := List.length_pos_of_ne_nil hd
    cases hc : cut d s with
    | none => simp [pieces_of_none hd hc, List.intercalate]
    | some r =>
      have hlen := cut_length (u := r.1) (v := r.2) hc
      have hrest := ih r.2.length (by omega) r.2 rfl
      obtain ⟨p, ps, hps⟩ := List.exists_cons_of_ne_nil (pieces_ne_nil d r.2)
      rw [pieces_of_some (u := r.1) (v := r.2) hd hc, hps, List.intercalate_cons_cons, ← hps, hrest, List.append_assoc]
      exact (cut_eq hc).symm

theorem length_pieces_le (hd : d ≠ []) (s : List α) : (pieces d s).length ≤ s.length + 1 := by
  induction hn : s.length using Nat.strong_induction_on generalizing s with
  | _ n ih =>
    have hpos := List.length_pos_of_ne_nil hd
    cases hc : cut d s with
    | none => simp [pieces_of_none hd hc]
    | some r =>
      have hlen := cut_length (u := r.1) (v := r.2) hc
      have hrest := ih r.2.length (by omega) r.2 rfl
      rw [pieces_of_some (u := r.1) (v := r.2) hd hc, List.length_cons]
      omega

/-- Behind some delimiters are the pieces that follow. -/
theorem pieces_skip (hd : d ≠ []) {n : Nat} {s r : List α} (h : skip d n s = some r) : (pieces d s).drop n = pieces d r := by
  induction n generalizing s with
  | zero =>
    obtain rfl := Option.some.inj h
    rfl
  | succ n ih =>
    obtain ⟨c, hc, hr⟩ := Option.bind_eq_some_iff.1 h
    rw [pieces_of_some (u := c.1) (v := c.2) hd hc]
    exact ih hr

/-- There is nothing behind as many delimiters as there are pieces. -/
theorem skip_eq_none_iff (hd : d ≠ []) {n : Nat} {s : List α} : skip d n s = none ↔ (pieces d s).length ≤ n := by
  induction n generalizing s with
  | zero =>
    have := List.length_pos_of_ne_nil (pieces_ne_nil d s)
    simp only [skip, reduceCtorEq, false_iff]
    omega
  | succ n ih =>
    rw [skip]
    cases hc : cut d s with
    | none => simp [pieces_of_none hd hc]
    | some r =>
      rw [Option.bind_some, ih, pieces_of_some (u := r.1) (v := r.2) hd hc, List.length_cons, Nat.succ_le_succ_iff]

end Pieces

/-!
## Where pieces start, and what they are joined to

The places of the pieces in a list, a range of pieces, and a list some pieces of which are replaced.
-/

namespace Pieces

variable {α : Type*}

/-! ## Joining -/

section Join

variable {d : List α}

/-- Pieces with the delimiter behind each. -/
def before (d : List α) (ps : List (List α)) : List α := ps.flatMap (· ++ d)

theorem before_cons (p : List α) (ps : List (List α)) : before d (p :: ps) = p ++ (d ++ before d ps) := by
  rw [before, List.flatMap_cons, List.append_assoc]
  rfl

theorem before_append (ps qs : List (List α)) : before d (ps ++ qs) = before d ps ++ before d qs := List.flatMap_append

theorem join_singleton (p : List α) : d.intercalate [p] = p := by simp [List.intercalate]

theorem join_append (ps : List (List α)) {qs : List (List α)} (h : qs ≠ []) : d.intercalate (ps ++ qs) = before d ps ++ d.intercalate qs := by
  induction ps with
  | nil => rfl
  | cons p ps ih =>
    obtain ⟨q, rest, hq⟩ := List.exists_cons_of_ne_nil (show ps ++ qs ≠ [] by simp [h])
    rw [List.cons_append, hq, List.intercalate_cons_cons, ← hq, ih, before_cons, List.append_assoc, List.append_assoc, List.append_assoc]

/-- A joined list and a delimiter, or all with a delimiter behind. -/
theorem join_append_delim {ps : List (List α)} (h : ps ≠ []) : d.intercalate ps ++ d = before d ps := by
  obtain ⟨init, -, rfl⟩ := (List.eq_nil_or_concat ps).resolve_left h
  rw [List.concat_eq_append, join_append init (by simp), join_singleton, List.append_assoc]
  simp [before]

theorem join_cons (p : List α) {qs : List (List α)} (h : qs ≠ []) : d.intercalate (p :: qs) = p ++ (d ++ d.intercalate qs) := by
  obtain ⟨q, -, rfl⟩ := List.exists_cons_of_ne_nil h
  rw [List.intercalate_cons_cons, List.append_assoc]

theorem before_replicate_nil (n : Nat) : before d (List.replicate n []) = (List.replicate n d).flatten := by
  induction n with
  | zero => rfl
  | succ n ih => rw [List.replicate_succ, before_cons, ih, List.replicate_succ, List.flatten_cons, List.nil_append]

end Join

variable [DecidableEq α] {d : List α}

/-! ## Places -/

/-- Where a piece starts. Behind the last one a delimiter is counted that is not there. -/
def offset (d s : List α) (k : Nat) : Nat := (before d ((pieces d s).take k)).length

/-- What is in front of the place behind some delimiters. -/
theorem skip_eq (hd : d ≠ []) {n : Nat} {s r : List α} (h : skip d n s = some r) : s = before d ((pieces d s).take n) ++ r := by
  induction n generalizing s with
  | zero =>
    obtain rfl := Option.some.inj h
    rfl
  | succ n ih =>
    obtain ⟨c, hc, hr⟩ := Option.bind_eq_some_iff.1 h
    rw [pieces_of_some (u := c.1) (v := c.2) hd hc, List.take_succ_cons, before_cons, List.append_assoc, List.append_assoc, ← ih hr]
    exact cut_eq hc

/-- The place where a piece starts. -/
theorem skip_of_lt (hd : d ≠ []) {n : Nat} {s : List α} (h : n < (pieces d s).length) : skip d n s = some (s.drop (offset d s n)) := by
  cases hs : skip d n s with
  | none => exact absurd ((skip_eq_none_iff hd).1 hs) (Nat.not_le.2 h)
  | some r =>
    have heq := congrArg (List.drop (offset d s n)) (skip_eq hd hs)
    rw [offset, List.drop_left, ← offset] at heq
    rw [heq]

theorem skip_add {n m : Nat} {s r : List α} (h : skip d n s = some r) : skip d (n + m) s = skip d m r := by
  induction n generalizing s with
  | zero =>
    obtain rfl := Option.some.inj h
    rw [Nat.zero_add]
  | succ n ih =>
    obtain ⟨c, hc, hr⟩ := Option.bind_eq_some_iff.1 h
    rw [Nat.add_right_comm, skip, hc, Option.bind_some, ih hr]

theorem offset_zero (s : List α) : offset d s 0 = 0 := rfl

theorem offset_succ {s : List α} {k : Nat} (h : k < (pieces d s).length) :
    offset d s (k + 1) = offset d s k + ((pieces d s).get ⟨k, h⟩).length + d.length := by
  rw [offset, offset, List.take_succ_eq_append_getElem h, before_append]
  simp [before, Nat.add_assoc]

theorem offset_le (hd : d ≠ []) {s : List α} {k : Nat} (h : k < (pieces d s).length) : offset d s k ≤ s.length := by
  have hlen := congrArg List.length (skip_eq hd (skip_of_lt hd h))
  rw [List.length_append, ← offset] at hlen
  omega

/-- Behind the last piece. -/
theorem offset_length (hd : d ≠ []) (s : List α) : offset d s (pieces d s).length = s.length + d.length := by
  rw [offset, List.take_length, ← join_append_delim (pieces_ne_nil d s), join_pieces hd, List.length_append]

/-- The pieces from a place on. -/
theorem pieces_drop_offset (hd : d ≠ []) {s : List α} {k : Nat} (h : k < (pieces d s).length) :
    pieces d (s.drop (offset d s k)) = (pieces d s).drop k := (pieces_skip hd (skip_of_lt hd h)).symm

/-! ## A delimiter of one element -/

section Single

variable {c : α}

theorem cut_single_append {u : List α} (h : c ∉ u) (v : List α) : cut [c] (u ++ c :: v) = some (u, v) := by
  induction u with
  | nil => exact cut_append (by simp) v
  | cons a u ih =>
    obtain ⟨hne, hrest⟩ := List.ne_and_not_mem_of_not_mem_cons h
    have hpre : ¬[c] <+: a :: (u ++ c :: v) := fun hp => hne (List.cons_prefix_cons.1 hp).1
    rw [List.cons_append, cut_cons hpre, ih hrest]
    rfl

theorem cut_single_none {s : List α} (h : cut [c] s = none) : c ∉ s := by
  intro hc
  obtain ⟨u, v, rfl, hu⟩ := List.eq_append_cons_of_mem hc
  rw [cut_single_append hu] at h
  cases h

theorem cut_single_some {s u v : List α} (h : cut [c] s = some (u, v)) : s = u ++ c :: v ∧ c ∉ u := by
  have heq : s = u ++ c :: v := cut_eq h
  have hc : c ∈ s := by simp [heq]
  obtain ⟨u', v', hs, hu'⟩ := List.eq_append_cons_of_mem hc
  rw [hs, cut_single_append hu'] at h
  obtain ⟨rfl, rfl⟩ := Prod.mk.inj (Option.some.inj h)
  exact ⟨heq, hu'⟩

/-- The pieces do not have the delimiter. -/
theorem not_mem_piece {s p : List α} (h : p ∈ pieces [c] s) : c ∉ p := by
  have hd : [c] ≠ [] := by simp
  induction hn : s.length using Nat.strong_induction_on generalizing s with
  | _ n ih =>
    cases hc : cut [c] s with
    | none =>
      rw [pieces_of_none hd hc, List.mem_singleton] at h
      subst h
      exact cut_single_none hc
    | some r =>
      obtain ⟨heq, hu⟩ := cut_single_some (u := r.1) (v := r.2) hc
      have hlen := congrArg List.length heq
      rw [List.length_append, List.length_cons] at hlen
      rw [pieces_of_some (u := r.1) (v := r.2) hd hc] at h
      rcases List.mem_cons.1 h with rfl | h
      · exact hu
      · exact ih r.2.length (by omega) h rfl

/-- Pieces in front of a list. -/
theorem pieces_before {ps : List (List α)} (h : ∀ p ∈ ps, c ∉ p) (t : List α) : pieces [c] (before [c] ps ++ t) = ps ++ pieces [c] t := by
  induction ps with
  | nil => rfl
  | cons p ps ih =>
    have hcut := cut_single_append (h p (by simp)) (before [c] ps ++ t)
    rw [before_cons, List.append_assoc, List.append_assoc, List.singleton_append, pieces_of_some (by simp) hcut,
      ih fun q hq => h q (List.mem_cons_of_mem _ hq)]
    rfl

/-- The places in a list that starts with the pieces of another. -/
theorem offset_before {s t : List α} {n k : Nat} (hk : k ≤ n) (hn : n ≤ (pieces [c] s).length) :
    offset [c] (before [c] ((pieces [c] s).take n) ++ t) k = offset [c] s k := by
  have hmem : ∀ p ∈ (pieces [c] s).take n, c ∉ p := fun p hp => not_mem_piece (List.mem_of_mem_take hp)
  rw [offset, pieces_before hmem, List.take_append_of_le_length (by rw [List.length_take]; omega), List.take_take, Nat.min_eq_left hk,
    offset]

theorem findIdx_of_not_mem {s : List α} (h : c ∉ s) : s.findIdx (· == c) = s.length := by
  rw [List.findIdx_eq_length]
  exact fun a ha => beq_false_of_ne fun heq => h (heq ▸ ha)

/-- A piece reaches to the next delimiter. -/
theorem findIdx_piece {s : List α} : s.findIdx (· == c) = ((pieces [c] s).head (pieces_ne_nil _ _)).length := by
  have hd : [c] ≠ [] := by simp
  cases hc : cut [c] s with
  | none =>
    simp only [pieces_of_none hd hc, List.head_cons, findIdx_of_not_mem (cut_single_none hc)]
  | some r =>
    obtain ⟨heq, hu⟩ := cut_single_some (u := r.1) (v := r.2) hc
    simp only [pieces_of_some (u := r.1) (v := r.2) hd hc, List.head_cons]
    conv_lhs => rw [heq]
    rw [List.findIdx_append, findIdx_of_not_mem hu, if_neg (Nat.lt_irrefl _), List.findIdx_cons, beq_self_eq_true]
    exact Nat.zero_add _

theorem findIdx_drop_offset {s : List α} {k : Nat} (h : k < (pieces [c] s).length) :
    (s.drop (offset [c] s k)).findIdx (· == c) = ((pieces [c] s).get ⟨k, h⟩).length := by
  rw [findIdx_piece]
  simp only [pieces_drop_offset (show [c] ≠ [] by simp) h, List.head_drop, List.get_eq_getElem]

end Single

/-! ## Ranges of pieces -/

/-- Some of the pieces, joined. -/
def pieceRange (d s : List α) (first cnt : Nat) : List α := d.intercalate (((pieces d s).drop first).take cnt)

/-- The list with `e` for the pieces from one to another, and with empty pieces where it has too few. -/
def setRange (d s e : List α) (first last : Nat) : List α :=
  d.intercalate ((pieces d s).take first ++ List.replicate (first - (pieces d s).length) [] ++ e :: (pieces d s).drop last)

theorem pieceRange_of_le {s : List α} {first cnt : Nat} (h : (pieces d s).length ≤ first) : pieceRange d s first cnt = [] := by
  rw [pieceRange, List.drop_eq_nil_of_le h]
  simp [List.intercalate]

/-- From a place on, up to a delimiter. -/
theorem pieceRange_of_skip (hd : d ≠ []) {s r r' : List α} {first cnt : Nat} (h : skip d first s = some r) (hcnt : cnt ≠ 0)
    (h' : skip d cnt r = some r') : pieceRange d s first cnt ++ d ++ r' = r := by
  have hle : ¬(pieces d r).length ≤ cnt := fun hle => by
    rw [(skip_eq_none_iff hd).2 hle] at h'
    cases h'
  have hne : (pieces d r).take cnt ≠ [] := by
    intro hnil
    have hlen := congrArg List.length hnil
    rw [List.length_take, List.length_nil] at hlen
    omega
  rw [pieceRange, pieces_skip hd h, join_append_delim hne]
  exact (skip_eq hd h').symm

/-- From a place on, up to the end. -/
theorem pieceRange_of_none (hd : d ≠ []) {s r : List α} {first cnt : Nat} (h : skip d first s = some r) (h' : skip d cnt r = none) :
    pieceRange d s first cnt = r := by
  rw [pieceRange, pieces_skip hd h, List.take_of_length_le ((skip_eq_none_iff hd).1 h'), join_pieces hd]

/-- Past the end. -/
theorem setRange_of_le (hd : d ≠ []) {s : List α} {first last : Nat} (h : (pieces d s).length ≤ first) (hle : first ≤ last) (e : List α) :
    setRange d s e first last = s ++ (List.replicate (first + 1 - (pieces d s).length) d).flatten ++ e := by
  rw [setRange, List.drop_eq_nil_of_le (Nat.le_trans h hle), List.take_of_length_le h, join_append _ (by simp), join_singleton,
    before_append, before_replicate_nil, ← join_append_delim (pieces_ne_nil d s), join_pieces hd,
    show first + 1 - (pieces d s).length = first - (pieces d s).length + 1 by omega, List.replicate_succ, List.flatten_cons,
    List.append_assoc s]

/-- From a place on, up to the end. -/
theorem setRange_of_none (hd : d ≠ []) {s r : List α} {first last : Nat} (h : skip d first s = some r)
    (hlast : (pieces d s).length ≤ last) (e : List α) : setRange d s e first last = before d ((pieces d s).take first) ++ e := by
  have hlt : first < (pieces d s).length := by
    refine Nat.not_le.1 fun hle => ?_
    rw [(skip_eq_none_iff hd).2 hle] at h
    cases h
  rw [setRange, Nat.sub_eq_zero_of_le (Nat.le_of_lt hlt), List.replicate_zero, List.append_nil, join_append _ (by simp),
    List.drop_eq_nil_of_le hlast, join_singleton]

/-- From a place on, up to a delimiter. -/
theorem setRange_of_lt (hd : d ≠ []) {s : List α} {first last : Nat} (hle : first ≤ last) (hlast : last < (pieces d s).length) (e : List α) :
    setRange d s e first last = before d ((pieces d s).take first) ++ (e ++ (d ++ s.drop (offset d s last))) := by
  have hne : (pieces d s).drop last ≠ [] := by simpa using hlast
  rw [setRange, Nat.sub_eq_zero_of_le (Nat.le_of_lt (Nat.lt_of_le_of_lt hle hlast)), List.replicate_zero, List.append_nil,
    join_append _ (by simp), join_cons _ hne, ← pieces_drop_offset hd hlast, join_pieces hd]

end Pieces
