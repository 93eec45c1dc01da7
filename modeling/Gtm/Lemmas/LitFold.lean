import Gtm.Compiler.LitFold
import Gtm.Lemmas.NumberRoundTrip

/-!
# Values of literals

What the folders and the run-time routines make of a literal, said through its number and its text. A chain of unary operators is
followed by `chainNum`, the number it makes of a number; `unary_tail`'s counters give the same number for the chains the parser
makes.
-/

namespace Gtm

/-- The string of a value. -/
def Mval.text (v : Mval) : List UInt8 := (mvForceStr v).str

/-- The number of a value. -/
def Mval.number (v : Mval) : Except RtErr ℚ := (mvForceNum v).map Mval.numVal

/-- The two mvals have the same string and the same number. -/
def SameValue (v w : Mval) : Prop := v.text = w.text ∧ v.number = w.number

/-- A literal that is a number: in range, marked exact only with its canonical string, and with the number its string denotes. -/
structure LitNum (v : Mval) : Prop where
  nm : v.mvtype.nm = true
  str : v.mvtype.str = true
  valid : v.NumValid
  exact : v.mvtype.numApprox = false → v.str = n2sStr v
  again : ∃ r, s2n v = .ok r ∧ r.mval.numVal = v.numVal ∧ r.mval.NumValid

/-- A literal of the compiler: a number, or a string no number has been made of. -/
structure LitOk (v : Mval) : Prop where
  str : v.mvtype.str = true
  num : v.mvtype.nm = true → LitNum v
  fresh : v.mvtype.nm = false → v.mvtype.int = false ∧ v.mvtype.numApprox = false

/-! ## Forcing -/

variable {v : Mval}

theorem number_of_nm (h : v.mvtype.nm = true) : v.number = .ok v.numVal := by
  rw [Mval.number, mvForceNum_of_nm h]
  rfl

theorem text_of_str (h : v.mvtype.str = true) : v.text = v.str := by rw [Mval.text, mvForceStr, if_pos h]

/-- `s2n` at compile time on a literal that does not overflow. -/
theorem s2nCompile_ok {u : Mval} {r : S2nResult} (h : s2n u = .ok r) : s2nCompile u = r.mval := by rw [s2nCompile, h]

theorem s2nCompile_error {u : Mval} {err : NumErr} (h : s2n u = .error err) :
    s2nCompile u = s2nOverflow u ∧ (s2nCompile u).mvtype.nm = false ∧ (s2nCompile u).str = u.str := by
  have : s2nCompile u = s2nOverflow u := by rw [s2nCompile, h]
  refine ⟨this, ?_, ?_⟩
  · rw [this]
    rfl
  · rw [this]
    rfl

/-- A literal too large to be a number keeps its string and overflows again. -/
theorem mvForceNum_of_overflow (h : (mvForceNumd v).mvtype.nm = false) :
    mvForceNum (mvForceNumd v) = .error .numoflow ∧ s2n (mvForceNumd v) = .error .numoflow := by
  have hs : s2n (mvForceNumd v) = .error .numoflow := by
    unfold mvForceNumd at h ⊢
    split at h
    · next hnm =>
      rw [hnm] at h
      cases h
    · next hnm =>
      rw [if_neg hnm]
      rcases hs : s2n v with err | r
      · obtain ⟨-, -, hstr⟩ := s2nCompile_error hs
        cases err
        exact s2n_error_congr hstr.symm hs
      · rw [s2nCompile_ok hs, (s2n_again hs).2.2.1] at h
        cases h
  refine ⟨?_, hs⟩
  rw [mvForceNum, if_neg (by simp [h]), hs]

/-- Forcing a literal that is in range makes it a number. -/
theorem LitOk.forced (h : LitOk v) (hnm : (mvForceNumd v).mvtype.nm = true) : LitNum (mvForceNumd v) := by
  unfold mvForceNumd at hnm ⊢
  by_cases hv : v.mvtype.nm = true
  · rw [if_pos hv]
    exact h.num hv
  · rw [if_neg hv] at hnm ⊢
    obtain ⟨hint, happ⟩ := h.fresh (by simpa using hv)
    rcases hs : s2n v with err | r
    · rw [(s2nCompile_error hs).2.1] at hnm
      cases hnm
    · rw [s2nCompile_ok hs]
      obtain ⟨hstr, hflag, hn, hag⟩ := s2n_again hs
      refine ⟨hn, hflag h.str, s2n_numValid hs hint, ?_, r, hag, rfl, s2n_numValid hs hint⟩
      intro hr
      rw [hstr, n2sStr_of_exact hs hint happ hr]

/-- A forced literal is a literal. -/
theorem LitOk.force (h : LitOk v) : LitOk (mvForceNumd v) := by
  cases hnm : (mvForceNumd v).mvtype.nm with
  | true =>
    have hF := h.forced hnm
    exact ⟨hF.str, fun _ => hF, fun hn => by rw [hnm] at hn; cases hn⟩
  | false =>
    unfold mvForceNumd at hnm ⊢
    by_cases hv : v.mvtype.nm = true
    · rw [if_pos hv, hv] at hnm
      cases hnm
    · rw [if_neg hv] at hnm ⊢
      rcases hs : s2n v with err | r
      · rw [(s2nCompile_error hs).1]
        exact ⟨h.str, nofun, fun _ => ⟨rfl, rfl⟩⟩
      · rw [s2nCompile_ok hs, (s2n_again hs).2.2.1] at hnm
        cases hnm

theorem mvForceNumd_of_nm (h : v.mvtype.nm = true) : mvForceNumd v = v := by rw [mvForceNumd, if_pos h]

/-! ## Literals the folders make -/

/-- The canonical string of a number in range makes a literal of it. -/
theorem litNum_n2s (hnm : v.mvtype.nm = true) (hv : v.NumValid) : LitNum (n2s v) where
  nm := hnm
  str := rfl
  valid := hv
  exact := fun _ => rfl
  again := by
    obtain ⟨r, hr, -, hrn, hrv⟩ := s2n_n2s hv
    exact ⟨r, hr, hrv, hrn⟩

theorem LitNum.litOk (h : LitNum v) : LitOk v := ⟨h.str, fun _ => h, fun hn => by rw [h.nm] at hn; cases hn⟩

theorem LitNum.text (h : LitNum v) : v.text = v.str := text_of_str h.str

theorem litNum_truth (b : Bool) : LitNum (putLiteralTruth b) := by
  cases b
  · refine ⟨rfl, rfl, by decide, fun _ => by decide, ?_⟩
    obtain ⟨r, hr, -, hn, hv⟩ := s2n_zero literalZero rfl rfl
    exact ⟨r, hr, by rw [hv]; simp [Mval.numVal, putLiteralTruth, literalZero], hn⟩
  · have h1 : LitNum (n2s literalOne) := litNum_n2s rfl (by simp [Mval.NumValid, literalOne, mvBias, mantHi])
    have h2 : n2s literalOne = literalOne := by decide +kernel
    rw [h2] at h1
    exact h1

theorem numVal_truth (b : Bool) : (putLiteralTruth b).numVal = if b then 1 else 0 := by
  cases b <;> norm_num [putLiteralTruth, literalOne, literalZero, Mval.numVal, mvBias]

theorem text_truth (b : Bool) : (putLiteralTruth b).text = n2sStr (putLiteralTruth b) :=
  (litNum_truth b).text.trans ((litNum_truth b).exact (by cases b <;> rfl))

/-- A number in range is zero exactly when its first word is. -/
theorem m1_eq_zero_iff (hv : v.NumValid) : v.m1 = 0 ↔ v.numVal = 0 := by
  constructor
  · intro h0
    cases hint : v.mvtype.int with
    | true => simp [Mval.numVal, hint, h0]
    | false =>
      simp only [Mval.NumValid, hint, Bool.false_eq_true, if_false, mantLo] at hv
      omega
  · intro h0
    cases hint : v.mvtype.int with
    | true =>
      simp only [Mval.numVal, hint, if_true] at h0
      have : (v.m1 : ℚ) = 0 := by linarith
      exact_mod_cast this
    | false =>
      exfalso
      obtain ⟨N, hlo, -, hN⟩ := NumberRoundTripAux.abs_numVal_words hv.mantValid hint
      rw [h0] at hN
      have : (0 : ℚ) < N / 10 ^ 18 * 10 ^ ((v.e : ℤ) - mvXbias) := by positivity
      linarith

/-! ## Chains of unary operators at run time -/

/-- A value the run-time routines pass on: a number in range whose string, if it is exact, is the canonical one. -/
structure RtNum (w : Mval) : Prop where
  nm : w.mvtype.nm = true
  valid : w.NumValid
  str : w.mvtype.str = true → w.mvtype.numApprox = false → w.str = n2sStr w

theorem LitNum.rtNum (h : LitNum v) : RtNum v := ⟨h.nm, h.valid, fun _ => h.exact⟩

/-- The number an operator makes of a number. -/
def UnaryOp.num (o : UnaryOp) (q : ℚ) : ℚ :=
  match o with
  | .neg => -q
  | .forcenum | .comval => q
  | .cobool => if q ≠ 0 then 1 else 0
  | .com => if q ≠ 0 then 0 else 1

/-- The number a chain makes of a number. -/
def chainNum : List UnaryOp → ℚ → ℚ
  | [], q => q
  | o :: cs, q => o.num (chainNum cs q)

theorem mvForceBool_num {w : Mval} (h : RtNum w) : mvForceBool w = .ok (decide (w.numVal ≠ 0)) := by
  rw [mvForceBool, mvForceNum_of_nm h.nm]
  simp only [Except.map, ne_eq, m1_eq_zero_iff h.valid]

/-- One operator on a number: what it makes has the canonical string, unless the operator passes its operand on. -/
theorem UnaryOp.run_num {w : Mval} (h : RtNum w) (o : UnaryOp) :
    ∃ x, o.run w = .ok x ∧ RtNum x ∧ x.numVal = o.num w.numVal ∧ (o ≠ .comval → x.text = n2sStr x) ∧ (o = .comval → x = w) := by
  have hforce := mvForceNum_of_nm h.nm
  have hv := h.valid
  cases o with
  | neg =>
    simp only [UnaryOp.run, opNeg, hforce]
    refine ⟨_, rfl, ?_, ?_, fun _ => ?_, by simp⟩
    · cases hint : w.mvtype.int with
      | true => exact ⟨rfl, by simpa [Mval.NumValid, hint] using hv, by simp⟩
      | false => exact ⟨rfl, by simpa [Mval.NumValid, hint] using hv, by simp⟩
    · cases hint : w.mvtype.int with
      | true =>
        simp only [UnaryOp.num, Mval.numVal, hint, if_true, Int.cast_neg]
        ring
      | false =>
        simp only [UnaryOp.num, Mval.numVal, hint, Bool.false_eq_true, if_false]
        cases w.sgn <;> simp
    · cases hint : w.mvtype.int <;> rfl
  | forcenum =>
    have hrun : UnaryOp.forcenum.run w = .ok (if w.mvtype.str && !w.mvtype.numApprox then w
        else if w.mvtype.int then { mvtype := { nm := true, int := true }, m1 := w.m1 }
        else { mvtype := { nm := true }, sgn := w.sgn, e := w.e, m1 := w.m1, m0 := w.m0 }) := by
      rw [UnaryOp.run, opForcenum, hforce]
      rfl
    rw [hrun]
    by_cases hs : (w.mvtype.str && !w.mvtype.numApprox) = true
    · refine ⟨w, by rw [if_pos hs], h, rfl, fun _ => ?_, by simp⟩
      obtain ⟨h1, h2⟩ : w.mvtype.str = true ∧ w.mvtype.numApprox = false := by simpa using hs
      rw [text_of_str h1, h.str h1 h2]
    · rw [if_neg hs]
      refine ⟨_, rfl, ?_, ?_, fun _ => ?_, by simp⟩
      · cases hint : w.mvtype.int with
        | true => exact ⟨rfl, by simpa [Mval.NumValid, hint] using hv, by simp⟩
        | false => exact ⟨rfl, by simpa [Mval.NumValid, hint] using hv, by simp⟩
      · cases hint : w.mvtype.int <;> simp [UnaryOp.num, Mval.numVal, hint]
      · cases hint : w.mvtype.int <;> rfl
  | comval => exact ⟨w, rfl, h, rfl, by simp, fun _ => rfl⟩
  | cobool =>
    refine ⟨_, by rw [UnaryOp.run, mvForceBool_num h]; rfl, (litNum_truth _).rtNum, ?_, fun _ => text_truth _, by simp⟩
    rw [numVal_truth, UnaryOp.num]
    simp
  | com =>
    refine ⟨_, by rw [UnaryOp.run, mvForceBool_num h]; rfl, (litNum_truth _).rtNum, ?_, fun _ => text_truth _, by simp⟩
    rw [numVal_truth, UnaryOp.num]
    by_cases h0 : w.numVal = 0 <;> simp [h0]

/-- A chain on a number. -/
theorem runChain_num (h : RtNum v) (cs : List UnaryOp) :
    ∃ w, runChain cs v = .ok w ∧ RtNum w ∧ w.numVal = chainNum cs v.numVal ∧ ((∃ o ∈ cs, o ≠ .comval) → w.text = n2sStr w) ∧
      ((∀ o ∈ cs, o = .comval) → w = v) := by
  induction cs with
  | nil => exact ⟨v, rfl, h, rfl, by simp, fun _ => rfl⟩
  | cons o cs ih =>
    obtain ⟨w, hw, hn, hv, ht, hc⟩ := ih
    obtain ⟨x, hx, hxn, hxv, hxt, hxc⟩ := UnaryOp.run_num hn o
    refine ⟨x, by rw [runChain, hw]; exact hx, hxn, by rw [hxv, hv, chainNum], ?_, ?_⟩
    · rintro ⟨o', ho', hne⟩
      by_cases hcom : o = .comval
      · subst hcom
        rw [hxc rfl]
        apply ht
        rcases List.mem_cons.mp ho' with rfl | ho'
        · exact absurd rfl hne
        · exact ⟨o', ho', hne⟩
      · exact hxt hcom
    · intro hall
      rw [hxc (hall o (by simp)), hc fun o' ho' => hall o' (by simp [ho'])]

/-- A chain on a literal too large to be a number. -/
theorem runChain_overflow (h : mvForceNum v = .error .numoflow) (cs : List UnaryOp) :
    ((∃ o ∈ cs, o ≠ .comval) → runChain cs v = .error .numoflow) ∧ ((∀ o ∈ cs, o = .comval) → runChain cs v = .ok v) := by
  induction cs with
  | nil => exact ⟨by simp, fun _ => rfl⟩
  | cons o cs ih =>
    constructor
    · intro hex
      by_cases hall : ∀ o' ∈ cs, o' = .comval
      · have ho : o ≠ .comval := by
          rintro rfl
          obtain ⟨o', ho', hne⟩ := hex
          rcases List.mem_cons.mp ho' with rfl | ho'
          · exact hne rfl
          · exact hne (hall o' ho')
        have hrun : o.run v = .error .numoflow := by
          cases o
          · rw [UnaryOp.run, mvForceBool, h]; rfl
          · rw [UnaryOp.run, mvForceBool, h]; rfl
          · exact absurd rfl ho
          · rw [UnaryOp.run, opForcenum, h]; rfl
          · rw [UnaryOp.run, opNeg, h]; rfl
        rw [runChain, ih.2 hall]
        exact hrun
      · push Not at hall
        rw [runChain, ih.1 hall]
        rfl
    · intro hall
      obtain rfl := hall o (by simp)
      rw [runChain, ih.2 fun o' ho' => hall o' (by simp [ho'])]
      rfl

/-! ## The counters of `unary_tail` -/

/-- The chains of unary operators over a literal: those of the parser, and `OC_COMVAL` on the `OC_COBOOL` that `bx_boollit` leaves
on a truth value. The Boolean says whether the chain makes a truth value. -/
inductive ChainTy (v : Mval) : Bool → List UnaryOp → Prop
  | nil : ChainTy v false []
  | neg {cs : List UnaryOp} : ChainTy v false cs → ChainTy v false (.neg :: cs)
  | forcenum {cs : List UnaryOp} : ChainTy v false cs → ChainTy v false (.forcenum :: cs)
  | cobool {cs : List UnaryOp} : ChainTy v false cs → ChainTy v true (.cobool :: cs)
  | com {cs : List UnaryOp} : ChainTy v true cs → ChainTy v true (.com :: cs)
  | comval {cs : List UnaryOp} : ChainTy v true (.com :: cs) → ChainTy v false (.comval :: .com :: cs)
  | truth (b : Bool) : v = putLiteralTruth b → ChainTy v false [.comval, .cobool]

/-- The negations in front of the first complement are odd in number. -/
def outerNegs : List UnaryOp → Bool
  | [] => false
  | .neg :: cs => !outerNegs cs
  | .com :: _ => false
  | _ :: cs => outerNegs cs

/-- The first coercion of the chain. -/
def firstCoerce : List UnaryOp → Option UnaryOp
  | [] => none
  | .comval :: _ => some .comval
  | .cobool :: _ => some .cobool
  | _ :: cs => firstCoerce cs

theorem tail_foldl (cs : List UnaryOp) (t : Tail) : cs.foldl Tail.count t =
    { com := t.com + cs.count .com, num := t.num + (cs.count .neg + cs.count .forcenum),
      neg := if t.com ≠ 0 then t.neg else t.neg ^^ outerNegs cs, pendingCoerce := t.pendingCoerce.or (firstCoerce cs) } := by
  induction cs generalizing t with
  | nil =>
    simp only [List.foldl_nil, List.count_nil, add_zero, outerNegs, firstCoerce, Bool.xor_false, ite_self, Option.or_none]
  | cons o cs ih =>
    rw [List.foldl_cons, ih]
    cases o
    · -- a complement ends the negations that count
      by_cases h : t.com = 0 <;> simp [Tail.count, outerNegs, firstCoerce, h, Nat.add_comm, Nat.add_left_comm]
    · by_cases h : t.com = 0 <;> cases hp : t.pendingCoerce <;> simp [Tail.count, outerNegs, firstCoerce, h, hp]
    · by_cases h : t.com = 0 <;> cases hp : t.pendingCoerce <;> simp [Tail.count, outerNegs, firstCoerce, h, hp]
    · by_cases h : t.com = 0 <;> simp [Tail.count, outerNegs, firstCoerce, h] <;> omega
    · by_cases h : t.com = 0 <;> simp [Tail.count, outerNegs, firstCoerce, h] <;> omega

theorem tailOf_eq (cs : List UnaryOp) : tailOf cs =
    { com := cs.count .com, num := cs.count .neg + cs.count .forcenum, neg := outerNegs cs, pendingCoerce := firstCoerce cs } := by
  rw [tailOf, tail_foldl]
  simp

/-- A truth value as a number. -/
def truthNum (b : Bool) : ℚ := if b then 1 else 0

/-- The number of the literal that replaces a chain with these counters over a number. -/
def tailNum (t : Tail) (q : ℚ) : ℚ :=
  (if t.neg then -1 else 1) * (if t.com ≠ 0 then truthNum (decide (q ≠ 0) ^^ decide (t.com % 2 = 1)) else q)

theorem truthNum_ne_zero (b : Bool) : truthNum b ≠ 0 ↔ b = true := by cases b <;> simp [truthNum]

theorem odd_succ (n : ℕ) : decide ((n + 1) % 2 = 1) = !decide (n % 2 = 1) := by
  rcases Nat.mod_two_eq_zero_or_one n with h | h
  · simp [h, Nat.add_mod]
  · simp [h, Nat.add_mod]

/-- The counters say what number a chain makes of a number. -/
theorem ChainTy.chainNum {t : Bool} {cs : List UnaryOp} (h : ChainTy v t cs) (q : ℚ)
    (hq : ∀ b, v = putLiteralTruth b → q = truthNum b) :
    Gtm.chainNum cs q = if t then truthNum (decide (q ≠ 0) ^^ decide (cs.count .com % 2 = 1))
      else (if outerNegs cs then -1 else 1) *
        (if cs.count .com ≠ 0 then truthNum (decide (q ≠ 0) ^^ decide (cs.count .com % 2 = 1)) else q) := by
  induction h with
  | nil => simp [Gtm.chainNum, outerNegs]
  | @neg cs _ ih =>
    rw [Gtm.chainNum, ih, List.count_cons_of_ne (by simp)]
    generalize (if cs.count .com ≠ 0 then truthNum (decide (q ≠ 0) ^^ decide (cs.count .com % 2 = 1)) else q) = base
    cases hn : outerNegs cs <;> simp [UnaryOp.num, outerNegs, hn]
  | @forcenum cs _ ih =>
    rw [Gtm.chainNum, ih]
    rfl
  | @cobool cs _ ih =>
    have hne : Gtm.chainNum cs q ≠ 0 ↔ (decide (q ≠ 0) ^^ decide (cs.count .com % 2 = 1)) = true := by
      rw [ih]
      by_cases hc : cs.count .com = 0
      · cases outerNegs cs <;> simp [hc]
      · have h2 := truthNum_ne_zero (decide (q ≠ 0) ^^ decide (cs.count .com % 2 = 1))
        generalize (decide (q ≠ 0) ^^ decide (cs.count .com % 2 = 1)) = b at h2 ⊢
        cases outerNegs cs <;> simpa [hc] using h2
    rw [Gtm.chainNum, UnaryOp.num, truthNum]
    simp only [hne]
    simp
  | @com cs _ ih =>
    rw [Gtm.chainNum, ih, if_pos rfl, UnaryOp.num, List.count_cons_self, odd_succ]
    have h2 := truthNum_ne_zero (decide (q ≠ 0) ^^ decide (cs.count .com % 2 = 1))
    cases decide (q ≠ 0) <;> cases decide (cs.count .com % 2 = 1) <;> simp [truthNum]
  | @comval cs _ ih =>
    rw [Gtm.chainNum, ih]
    simp [UnaryOp.num, outerNegs]
  | truth b hv =>
    rw [hq b hv]
    cases b <;> simp [Gtm.chainNum, UnaryOp.num, outerNegs, truthNum]

/-! ## The literal `unary_tail` leaves -/

theorem negLiteral_num (hnm : v.mvtype.nm = true) (hv : v.NumValid) :
    (negLiteral v).mvtype.nm = true ∧ (negLiteral v).NumValid ∧ (negLiteral v).numVal = -v.numVal := by
  unfold negLiteral
  cases hint : v.mvtype.int with
  | true =>
    have hm : v.m1.natAbs < mantHi := by simpa [Mval.NumValid, hint] using hv
    rw [if_pos rfl]
    split
    · refine ⟨hnm, by simpa [Mval.NumValid, hint] using hm, ?_⟩
      simp only [Mval.numVal, hint, if_true, Int.cast_neg]
      ring
    · next h0 =>
      have h0 : v.m1 = 0 := by simpa using h0
      refine ⟨hnm, by simpa [Mval.NumValid, hint] using hm, ?_⟩
      simp [Mval.numVal, hint, h0]
  | false =>
    rw [if_pos hnm]
    refine ⟨hnm, by simpa [Mval.NumValid, hint] using hv, ?_⟩
    simp only [Mval.numVal, hint, Bool.false_eq_true, if_false]
    cases v.sgn <;> simp

/-- The literal in place of a chain over a literal that is a number. -/
theorem tailLiteral_num (h : LitNum (mvForceNumd v)) (t : Tail) (ht : t.num = 0 → t.neg = false) :
    ∃ w, tailLiteral t v = .ok w ∧ LitNum w ∧ w.numVal = tailNum t (mvForceNumd v).numVal ∧
      (t.com ≠ 0 ∨ t.num ≠ 0 → w.str = n2sStr w) ∧ (t.com = 0 → t.num = 0 → w = mvForceNumd v) := by
  unfold tailLiteral
  simp only [mvForceNumd_of_nm h.nm]
  generalize mvForceNumd v = F at *
  -- the complements first
  obtain ⟨x, hx, hxl, hxv, hxs, hx0⟩ : ∃ x, (if t.com ≠ 0 then putLiteralTruth (if t.com % 2 = 1 then decide (F.m1 = 0) else decide (F.m1 ≠ 0))
      else F) = x ∧ LitNum x ∧ x.numVal = (if t.com ≠ 0 then truthNum (decide (F.numVal ≠ 0) ^^ decide (t.com % 2 = 1)) else F.numVal) ∧
      (t.com ≠ 0 → x.str = n2sStr x) ∧ (t.com = 0 → x = F) := by
    by_cases hc : t.com = 0
    · exact ⟨F, by simp [hc], h, by simp [hc], by simp [hc], fun _ => rfl⟩
    · refine ⟨_, by rw [if_pos hc], litNum_truth _, ?_, fun _ => ?_, by simp [hc]⟩
      · rw [if_pos hc, numVal_truth, truthNum]
        by_cases h0 : F.numVal = 0 <;> by_cases hodd : t.com % 2 = 1 <;> simp [m1_eq_zero_iff h.valid, h0, hodd]
      · rw [← (litNum_truth _).text, text_truth]
  rw [hx]
  have hnum : tailNum t F.numVal = (if t.neg then -1 else 1) * x.numVal := by rw [tailNum, hxv]
  by_cases hn : t.num = 0
  · rw [if_pos hn]
    refine ⟨x, rfl, hxl, ?_, fun hc => hxs (by simpa [hn] using hc), fun hc _ => hx0 hc⟩
    rw [hnum, ht hn]
    simp
  · rw [if_neg hn]
    cases hneg : t.neg with
    | true =>
      obtain ⟨h1, h2, h3⟩ := negLiteral_num hxl.nm hxl.valid
      refine ⟨_, rfl, litNum_n2s h1 h2, ?_, fun _ => rfl, by simp [hn]⟩
      rw [hnum, hneg, if_pos rfl, neg_one_mul, ← h3]
      rfl
    | false =>
      obtain ⟨r, hr, hrv, hrn⟩ := hxl.again
      have hrnm := (s2n_again hr).2.2.1
      rw [s2nCompile_ok hr, if_pos hrnm]
      refine ⟨_, rfl, litNum_n2s hrnm hrn, ?_, fun _ => rfl, by simp [hn]⟩
      rw [hnum, hneg, ← hrv]
      simp only [Bool.false_eq_true, if_false, one_mul]
      rfl

/-- Over a literal too large to be a number a complement or a negation goes unnoticed, and a plain conversion is an error. -/
theorem tailLiteral_overflow (h : (mvForceNumd v).mvtype.nm = false) (t : Tail) :
    (t.com = 0 → t.num = 0 → tailLiteral t v = .ok (mvForceNumd v)) ∧
      (t.com = 0 → t.num ≠ 0 → t.neg = false → tailLiteral t v = .error .numoflow) ∧
      (t.com ≠ 0 ∨ (t.num ≠ 0 ∧ t.neg = true) → ∃ w, tailLiteral t v = .ok w) := by
  obtain ⟨-, hs⟩ := mvForceNum_of_overflow h
  unfold tailLiteral
  refine ⟨fun hc hn => by simp [hc, hn], fun hc hn hneg => ?_, fun hcase => ?_⟩
  · obtain ⟨-, hnm, -⟩ := s2nCompile_error hs
    simp [hc, hn, hneg, hnm]
  · by_cases hn : t.num = 0
    · exact ⟨_, if_pos hn⟩
    · rw [if_neg hn]
      cases hneg : t.neg with
      | true => exact ⟨_, rfl⟩
      | false =>
        have hc : t.com ≠ 0 := by simpa [hneg] using hcase
        rw [if_pos hc]
        obtain ⟨r, hr, -, -⟩ := (litNum_truth (if t.com % 2 = 1 then decide ((mvForceNumd (mvForceNumd v)).m1 = 0)
          else decide ((mvForceNumd (mvForceNumd v)).m1 ≠ 0))).again
        rw [s2nCompile_ok hr, if_pos (s2n_again hr).2.2.1]
        exact ⟨_, rfl⟩

end Gtm
