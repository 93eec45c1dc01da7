import Gtm.Lemmas.StringToNumber
import Gtm.Lemmas.SubscriptBytes

/-!
# The key order is the collation order

The bytes `mval2subsc` appends compare as the subscripts collate, so equal bytes mean equal subscripts, and keys built from lists
of subscripts compare as the lists.
-/

namespace Gtm

open Positional LexOrder SubscriptBytesAux

namespace SubscriptOrderAux

/-- Any two subscripts are ordered one way, the other way, or equal. -/
theorem subsc_trichotomy (std : Bool) (x y : Subsc) : x.Lt std y ∨ x = y ∨ y.Lt std x := by
  cases x with
  | num p =>
    cases y with
    | num q =>
      rcases lt_trichotomy p q with h | h | h
      · exact Or.inl h
      · exact Or.inr (Or.inl (by rw [h]))
      · exact Or.inr (Or.inr h)
    | str t =>
      by_cases ht : t = []
      · cases std
        · exact Or.inl (Or.inr rfl)
        · exact Or.inr (Or.inr ⟨ht, rfl⟩)
      · exact Or.inl (Or.inl ht)
  | str s =>
    cases y with
    | num q =>
      by_cases hs : s = []
      · cases std
        · exact Or.inr (Or.inr (Or.inr rfl))
        · exact Or.inl ⟨hs, rfl⟩
      · exact Or.inr (Or.inr (Or.inl hs))
    | str t =>
      rcases lt_trichotomy s t with h | h | h
      · exact Or.inl h
      · exact Or.inr (Or.inl (by rw [h]))
      · exact Or.inr (Or.inr h)

variable {b : List UInt8} {std : Bool} {coll : Collation} {v : Mval} {k k' : GvKey}

/-- Subscripts with equal bytes are equal, and equal subscripts have equal bytes. -/
theorem encodes_eq_iff {x y : Subsc} {c : List UInt8} (hx : Encodes std x b) (hy : Encodes std y c) : b = c ↔ x = y := by
  constructor
  · rintro rfl
    rcases subsc_trichotomy std x y with h | h | h
    · exact absurd ((hx.lt_iff hy).mpr h) (lt_irrefl _)
    · exact h
    · exact absurd ((hy.lt_iff hx).mpr h) (lt_irrefl _)
  · rintro rfl
    have h1 := hx.lt_iff hy
    have h2 := hy.lt_iff hx
    have heq : b ++ [keyDelimiter] = c ++ [keyDelimiter] := by
      rcases lt_trichotomy (b ++ [keyDelimiter]) (c ++ [keyDelimiter]) with h | h | h
      · exact absurd (h2.mpr (h1.mp h)) h.le.not_gt
      · exact h
      · exact absurd (h1.mpr (h2.mp h)) h.le.not_gt
    exact List.append_cancel_right heq

/-- No byte of a subscript is a `KEY_DELIMITER`. -/
theorem encodes_not_mem {x : Subsc} (h : Encodes std x b) : keyDelimiter ∉ b := by
  have hnum : ∀ (neg : Bool) (n : ℕ) (ps : List ℕ) (q : ℚ), 148 ≤ n → n ≤ 237 → Normal 100 ((n : ℤ) - subscriptBias) ps q →
      keyDelimiter ∉ numberBytes neg n ps := by
    intro neg n ps q hlo hhi hn hmem
    simp only [numberBytes, List.mem_append, List.mem_cons, List.mem_map] at hmem
    rcases hmem with (hexp | ⟨d, hd, hcode⟩) | hend
    · have := congrArg UInt8.toNat hexp
      cases neg
      · rw [expByte_false_toNat (by omega)] at this
        simp [keyDelimiter] at this
        omega
      · rw [expByte_true_toNat (by omega)] at this
        simp [keyDelimiter] at this
        omega
    · exact cvtTable_ne_zero neg (hn.digits d hd) hcode
    · cases neg <;> simp [keyDelimiter, negMntssaEnd] at hend
  cases h with
  | zero => decide
  | pos hlo hhi hn => exact hnum false _ _ _ hlo hhi hn
  | neg hlo hhi hn => exact hnum true _ _ _ hlo hhi hn
  | str s => exact fun hmem => absurd (strBytes_pos std s _ hmem) (lt_irrefl _)

/-- What `mval2subsc` encodes once the mval has been looked at: a string or a number in range, of the same subscript value. -/
theorem subscMval_spec (hc : coll.Plain) (hv : v.SubscValid) :
    ∃ w, subscMval coll v = .ok w ∧ ((w.mvtype.numApprox = true ∧ v.subsc = .str w.str) ∨
      (w.mvtype.numApprox = false ∧ w.NumValid ∧ v.subsc = .num w.numVal)) := by
  have hcoll : ¬ (coll.transform = true ∧ coll.nct = true) := by
    rcases hc with h | h <;> simp [h]
  unfold subscMval
  rw [if_neg hcoll]
  rcases hv with ⟨hnm, happ, hnum⟩ | ⟨hstr, hint, hnm, happ⟩
  · rw [if_pos (Or.inl hnm)]
    have happ' : v.mvtype.numApprox = false := by simpa using happ
    exact ⟨v, rfl, Or.inr ⟨happ', hnum, by simp [Mval.subsc, happ', hnm]⟩⟩
  · by_cases ha : v.mvtype.numApprox = true
    · rw [if_pos (Or.inr ha)]
      exact ⟨v, rfl, Or.inl ⟨ha, by simp [Mval.subsc, ha]⟩⟩
    · have hn : v.mvtype.nm = false := by
        by_contra hcon
        exact ha (hnm (by simpa using hcon))
      have ha' : v.mvtype.numApprox = false := by simpa using ha
      have hi : v.mvtype.int = false := by
        by_contra hcon
        simpa [hn] using hint (by simpa using hcon)
      have hforce : mvForceStr v = v := by simp [mvForceStr, hstr]
      rw [if_neg (by simp [hn, ha'])]
      unfold valIscan
      rw [hforce]
      by_cases hcan : valIscanStr v.str = true
      · rw [if_pos hcan]
        rcases canonic_of_valIscanStr hcan with hz | ⟨neg, e, ds, hs, hcanon⟩
        · obtain ⟨r, hr, hra, hrn, hrv⟩ := s2n_zero v hz ha'
          refine ⟨r.mval, by rw [hr]; rfl, Or.inr ⟨hra, hrn, ?_⟩⟩
          rw [Mval.subsc, if_neg (by simp [ha']), if_neg (by simp [hn]), if_pos hcan, hrv, hz]
          simp [decVal, decAbs, ascZero, ascMinus, isDigit, ascNine, digitVal]
        · obtain ⟨r, hr, hra, hrn, hrv⟩ := s2n_decStr hcanon neg v hs hi ha'
          refine ⟨r.mval, by rw [hr]; rfl, Or.inr ⟨hra, hrn, ?_⟩⟩
          rw [Mval.subsc, if_neg (by simp [ha']), if_neg (by simp [hn]), if_pos hcan, hrv, hs, hcanon.decVal_decStr]
      · rw [if_neg hcan]
        refine ⟨_, rfl, Or.inl ⟨rfl, ?_⟩⟩
        rw [Mval.subsc, if_neg (by simp [ha']), if_neg (by simp [hn]), if_neg hcan]

/-- What a successful `mval2subsc` appends: the bytes of the string or of the number, and a delimiter. -/
theorem mval2subsc_ok (hc : coll.Plain) {w : Mval} (hw : subscMval coll v = .ok w) (h : mval2subsc coll v k std = .ok k') :
    k'.base = k.base ++ ((if w.mvtype.numApprox then strBytes std w.str else numSubsc w) ++ [keyDelimiter]) := by
  have hx : xformStr coll w.str = w.str := by
    unfold xformStr
    rcases hc with h | ⟨-, h⟩ <;> simp [h]
  unfold mval2subsc at h
  rw [hw] at h
  simp only [hx] at h
  split at h
  · simp at h
  · rename_i bytes hbytes
    split at h
    · simp at h
    · obtain rfl := Except.ok.inj h
      by_cases ha : w.mvtype.numApprox = true
      · rw [if_pos ha] at hbytes
        simp [ha, strSubsc_eq hbytes]
      · rw [if_neg ha] at hbytes
        simp [ha, Option.some.inj hbytes]

/-- `mval2subsc` appends an encoding of the subscript and a delimiter. -/
theorem mval2subsc_encodes (hc : coll.Plain) (hv : v.SubscValid)
    (h : mval2subsc coll v k std = .ok k') : ∃ b, k'.base = k.base ++ (b ++ [keyDelimiter]) ∧ Encodes std v.subsc b := by
  obtain ⟨w, hw, hspec⟩ := subscMval_spec hc hv
  refine ⟨_, mval2subsc_ok hc hw h, ?_⟩
  rcases hspec with ⟨ha, hs⟩ | ⟨ha, hn, hs⟩
  · rw [hs, if_pos ha]
    exact Encodes.str _
  · rw [hs, if_neg (by simp [ha])]
    exact numSubsc_encodes std w hn

/-- The bytes of a list of encodings, each closed by a delimiter. -/
def closed (bs : List (List UInt8)) : List UInt8 := (bs.map (· ++ [keyDelimiter])).flatten

@[simp] theorem closed_nil : closed [] = [] := rfl

@[simp] theorem closed_cons (b : List UInt8) (bs : List (List UInt8)) : closed (b :: bs) = b ++ keyDelimiter :: closed bs := by
  simp [closed]

/-- Appending a list of subscripts appends the closed encodings of its members. -/
theorem appendSubscs_encodes (hc : coll.Plain) {vs : List Mval} (hvs : ∀ v ∈ vs, v.SubscValid) (h : appendSubscs coll vs k std = .ok k') :
    ∃ bs, k'.base = k.base ++ closed bs ∧ List.Forall₂ (Encodes std) (vs.map Mval.subsc) bs := by
  induction vs generalizing k with
  | nil =>
    obtain rfl : k = k' := Except.ok.inj h
    exact ⟨[], by simp, by simp⟩
  | cons v vs ih =>
    unfold appendSubscs at h
    rw [List.foldlM_cons] at h
    cases hm : mval2subsc coll v k std with
    | error err =>
      rw [hm] at h
      simp [bind, Except.bind] at h
    | ok k1 =>
      rw [hm] at h
      obtain ⟨b, hb, henc⟩ := mval2subsc_encodes hc (hvs v (by simp)) hm
      obtain ⟨bs, hbs, hall⟩ := ih (fun x hx => hvs x (by simp [hx])) h
      refine ⟨b :: bs, ?_, List.Forall₂.cons henc hall⟩
      rw [hbs, hb]
      simp

/-- A closed encoding is above the end of a key, closed or not. -/
theorem end_lt_closed (hb : keyDelimiter ∉ b) (r : List UInt8) {t : List UInt8} (ht : t = [] ∨ t = [keyDelimiter]) :
    t < b ++ keyDelimiter :: (r ++ t) := by
  rcases ht with rfl | rfl
  · cases b <;> simp
  · cases b with
    | nil => cases r <;> simp
    | cons c b =>
      have hc : keyDelimiter < c := by
        rw [UInt8.lt_iff_toNat_lt]
        have : c.toNat ≠ 0 := fun h0 => hb (by simp [← UInt8.toNat_inj, keyDelimiter, h0])
        simp only [keyDelimiter, UInt8.reduceToNat]
        omega
      simp [List.cons_lt_cons_iff, hc]

/-- Lists of closed encodings compare as the lists of subscripts. -/
theorem closed_lt_iff {xs ys : List Subsc} {bs cs : List (List UInt8)} (hx : List.Forall₂ (Encodes std) xs bs)
    (hy : List.Forall₂ (Encodes std) ys cs) {t : List UInt8} (ht : t = [] ∨ t = [keyDelimiter]) :
    closed bs ++ t < closed cs ++ t ↔ List.Lex (Subsc.Lt std) xs ys := by
  induction hx generalizing ys cs with
  | nil =>
    cases hy with
    | nil => simp
    | @cons y c ys cs hyc hrest =>
      rw [closed_nil, closed_cons, List.append_assoc, List.cons_append]
      simp only [List.Lex.nil, iff_true]
      exact end_lt_closed (encodes_not_mem hyc) _ ht
  | @cons x b xs bs hxb _ ih =>
    cases hy with
    | nil =>
      rw [closed_nil, closed_cons, List.append_assoc, List.cons_append]
      simp only [List.not_lex_nil, iff_false]
      exact (end_lt_closed (encodes_not_mem hxb) _ ht).le.not_gt
    | @cons y c ys cs hyc hrest =>
      rw [closed_cons, closed_cons, List.append_assoc, List.append_assoc, List.cons_append, List.cons_append,
        append_terminator_lt_iff _ _ (encodes_not_mem hxb) (encodes_not_mem hyc), hxb.lt_iff hyc, encodes_eq_iff hxb hyc,
        ih hrest, List.cons_lex_cons_iff]

end SubscriptOrderAux

open SubscriptOrderAux

/-- The bytes `mval2subsc` appends for two subscripts compare as the subscripts collate and are equal only for equal subscripts;
the keys of two lists of subscripts compare as the lists, with or without the second delimiter. -/
theorem mval2subsc_collates (coll : Collation) (hc : coll.Plain) (std : Bool) :
    (∀ a b : Mval, a.SubscValid → b.SubscValid → ∀ k l ka lb : GvKey, mval2subsc coll a k std = .ok ka →
      mval2subsc coll b l std = .ok lb →
      (ka.base.drop k.kend < lb.base.drop l.kend ↔ a.subsc.Lt std b.subsc) ∧
        (ka.base.drop k.kend = lb.base.drop l.kend ↔ a.subsc = b.subsc)) ∧
    (∀ as bs : List Mval, (∀ v ∈ as, v.SubscValid) → (∀ v ∈ bs, v.SubscValid) → ∀ k ka kb : GvKey,
      appendSubscs coll as k std = .ok ka → appendSubscs coll bs k std = .ok kb →
      (ka.base < kb.base ↔ List.Lex (Subsc.Lt std) (as.map Mval.subsc) (bs.map Mval.subsc)) ∧
        (ka.base ++ [keyDelimiter] < kb.base ++ [keyDelimiter] ↔
          List.Lex (Subsc.Lt std) (as.map Mval.subsc) (bs.map Mval.subsc))) := by
  refine ⟨?_, ?_⟩
  · intro a b hva hvb k l ka lb ha hb
    obtain ⟨u, hu, hencu⟩ := mval2subsc_encodes hc hva ha
    obtain ⟨w, hw, hencw⟩ := mval2subsc_encodes hc hvb hb
    rw [hu, hw, GvKey.kend, GvKey.kend, List.drop_left, List.drop_left]
    refine ⟨hencu.lt_iff hencw, ?_⟩
    rw [List.append_left_inj]
    exact encodes_eq_iff hencu hencw
  · intro as bs has hbs k ka kb ha hb
    obtain ⟨us, hus, hencu⟩ := appendSubscs_encodes hc has ha
    obtain ⟨ws, hws, hencw⟩ := appendSubscs_encodes hc hbs hb
    have hplain := closed_lt_iff hencu hencw (Or.inl rfl)
    rw [List.append_nil, List.append_nil] at hplain
    rw [hus, hws]
    refine ⟨?_, ?_⟩
    · rw [append_left_lt_iff]
      exact hplain
    · rw [List.append_assoc, List.append_assoc, append_left_lt_iff]
      exact closed_lt_iff hencu hencw (Or.inr rfl)

/-- A name with no subscripts, in a buffer of the usual size. -/
def nameKey : GvKey := { base := [0x41, 0], prev := 0, top := 1050 }

/-- The number -1 and the string `A` in two keys, and the lists of one and two subscripts they make. -/
theorem mval2subsc_collates_minus_one :
    (([64, 238, 255, 0] : List UInt8) < [255, 0x41, 0] ↔
      Subsc.Lt false (Mval.subsc { mvtype := { nm := true, int := true }, m1 := -1000 }) (Mval.ofStr [0x41]).subsc) ∧
    (([0x41, 0, 255, 0x41, 0] : List UInt8) < [0x41, 0, 255, 0x41, 0, 64, 238, 255, 0] ↔
      List.Lex (Subsc.Lt false) [(Mval.ofStr [0x41]).subsc]
        [(Mval.ofStr [0x41]).subsc, Mval.subsc { mvtype := { nm := true, int := true }, m1 := -1000 }]) := by
  have hnum : Mval.SubscValid { mvtype := { nm := true, int := true }, m1 := -1000 } := Or.inl ⟨rfl, by decide, by decide⟩
  have hstr : (Mval.ofStr [0x41]).SubscValid := Or.inr ⟨rfl, by decide, by decide, by decide⟩
  have hpair : ∀ v ∈ [Mval.ofStr [0x41], { mvtype := { nm := true, int := true }, m1 := -1000 }], v.SubscValid := by
    intro v hv
    rcases List.mem_pair.mp hv with rfl | rfl
    · exact hstr
    · exact hnum
  refine ⟨((mval2subsc_collates {} (Or.inl rfl) false).1 _ _ hnum hstr nameKey nameKey ⟨[0x41, 0, 64, 238, 255, 0], 2, 1050⟩
    ⟨[0x41, 0, 255, 0x41, 0], 2, 1050⟩ (by decide) (by decide)).1, ?_⟩
  exact ((mval2subsc_collates {} (Or.inl rfl) false).2 [Mval.ofStr [0x41]] _ (by simpa using hstr) hpair nameKey
    ⟨[0x41, 0, 255, 0x41, 0], 2, 1050⟩ ⟨[0x41, 0, 255, 0x41, 0, 64, 238, 255, 0], 5, 1050⟩ (by decide) (by decide)).1

end Gtm
