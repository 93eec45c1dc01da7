import Gtm.Lemmas.LitFold

/-!
# Literals worked out at compile time

Every operation on literals that `unary_tail`, `ex_tail` and `bx_boollit` carry out while an expression is compiled gives the
literal, or the error, that evaluation at run time gives, except for operations on a literal too large to be a number and for a
remainder that is the dividend itself.
-/

namespace Gtm

/-- The text of the literal denotes a number too large to be stored. -/
def Mval.tooLarge (v : Mval) : Bool := !(mvForceNumd v).mvtype.nm

/-- The literal put in the operation's place has the string and the number of what the operation evaluates to, and an error is
the one evaluation raises. -/
def LitOp.Right (lib : RtLib) (op : LitOp) : Prop :=
  match op.fold lib with
  | .error err => op.run lib = .error err
  | .ok none => True
  | .ok (some v) => ∃ w, op.run lib = .ok w ∧ SameValue v w

/-- The operations that are folded as they are evaluated: a chain over a literal in range or with neither a complement nor an odd
number of negations, a remainder that is not its dividend or whose dividend has its canonical string, and a Boolean operator whose
literals are in range or that makes numbers of them at run time too. -/
def LitOp.Faithful (lib : RtLib) : LitOp → Prop
  | .chain cs v => v.tooLarge = true → .com ∉ cs ∧ cs.count .neg % 2 = 0
  | .arith c v0 v1 => c = .mod → v0.tooLarge = false → v1.tooLarge = false → (mvForceNumd v1).m1 ≠ 0 →
    lib.modKeeps (mvForceNumd v0) (mvForceNumd v1) = true → (mvForceNumd v0).str = n2sStr (mvForceNumd v0)
  | .bool c v0 v1 => v0.tooLarge = true ∨ v1.tooLarge = true → match c.kind with
    | .gt | .lt => True
    | .and => v0.tooLarge = true ∨ (mvForceNumd v0).m1 ≠ 0
    | .or => v0.tooLarge = true ∨ (mvForceNumd v0).m1 = 0
    | _ => False

namespace LiteralFoldingAux

variable {v w v0 v1 : Mval} {cs : List UnaryOp} {lib : RtLib} {e : LitExpr}

theorem nm_of_not_tooLarge (h : v.tooLarge = false) : (mvForceNumd v).mvtype.nm = true := by
  simpa [Mval.tooLarge] using h

theorem nm_of_tooLarge (h : v.tooLarge = true) : (mvForceNumd v).mvtype.nm = false := by
  simpa [Mval.tooLarge] using h

/-! ## Chains -/

/-- The operators a chain's literal stands for are those of the chain but for a coercion. -/
theorem mem_replaced {o : UnaryOp} (h : o ∈ cs) (hne : o ≠ .cobool) : o ∈ replaced cs := by
  cases cs with
  | nil => exact h
  | cons c cs =>
    cases c
    case cobool =>
      rcases List.mem_cons.mp h with rfl | h
      · exact absurd rfl hne
      · exact h
    all_goals exact h

theorem chain_num {t : Bool} (h : ChainTy v t cs) (q : ℚ)
    (hq : ∀ b, v = putLiteralTruth b → q = truthNum b) : tailNum (tailOf cs) q = chainNum (replaced cs) q := by
  rw [tailOf_eq]
  unfold tailNum
  have hspec := h.chainNum q hq
  cases h with
  | nil => simpa [replaced] using hspec.symm
  | neg h => simpa [replaced] using hspec.symm
  | forcenum h => simpa [replaced] using hspec.symm
  | @cobool cs h =>
    have hcs : Gtm.chainNum cs q = (if outerNegs cs then -1 else 1) *
        (if cs.count .com ≠ 0 then truthNum (decide (q ≠ 0) ^^ decide (cs.count .com % 2 = 1)) else q) := h.chainNum q hq
    rw [show replaced (.cobool :: cs) = cs from rfl, hcs]
    rfl
  | com h => simpa [replaced, outerNegs] using hspec.symm
  | comval h => simpa [replaced, outerNegs] using hspec.symm
  | truth b hb => simpa [replaced, outerNegs] using hspec.symm

/-- A chain of coercions only. -/
theorem replaced_of_coercions {t : Bool} (h : ChainTy v t cs) (hc : cs.count .com = 0)
    (hn : cs.count .neg + cs.count .forcenum = 0) : replaced cs = [] ∨ ∃ b, v = putLiteralTruth b := by
  cases h with
  | nil => exact Or.inl rfl
  | neg h => simp at hn
  | forcenum h =>
    simp only [List.count_cons_self] at hn
    omega
  | @cobool cs h =>
    cases h with
    | nil => exact Or.inl rfl
    | neg h => simp at hn
    | forcenum h => simp at hn
    | comval h => simp at hc
    | truth b hb => exact Or.inr ⟨b, hb⟩
  | com h => simp at hc
  | comval h => simp at hc
  | truth b hb => exact Or.inr ⟨b, hb⟩

/-- Without a complement all negations count. -/
theorem outerNegs_eq (h : .com ∉ cs) : outerNegs cs = decide (cs.count .neg % 2 = 1) := by
  induction cs with
  | nil => rfl
  | cons o cs ih =>
    have ih := ih fun hm => h (by simp [hm])
    cases o with
    | com => exact absurd (by simp) h
    | neg => rw [outerNegs, ih, List.count_cons_self, odd_succ]
    | cobool => rw [show outerNegs (.cobool :: cs) = outerNegs cs from rfl, ih, List.count_cons_of_ne (by simp)]
    | comval => rw [show outerNegs (.comval :: cs) = outerNegs cs from rfl, ih, List.count_cons_of_ne (by simp)]
    | forcenum => rw [show outerNegs (.forcenum :: cs) = outerNegs cs from rfl, ih, List.count_cons_of_ne (by simp)]

theorem outerNegs_of_not_mem (h : .neg ∉ cs) : outerNegs cs = false := by
  induction cs with
  | nil => rfl
  | cons o cs ih =>
    have ih := ih fun hm => h (by simp [hm])
    cases o with
    | neg => exact absurd (by simp) h
    | com => rfl
    | cobool => exact ih
    | comval => exact ih
    | forcenum => exact ih

theorem forced_truth (b : Bool) : mvForceNumd (putLiteralTruth b) = putLiteralTruth b := mvForceNumd_of_nm (litNum_truth b).nm

theorem chain_right (hv : LitOk v) {t : Bool} (h : ChainTy v t cs)
    (hnm : (mvForceNumd v).mvtype.nm = true) : (LitOp.chain cs v).Right lib := by
  have hF := hv.forced hnm
  have hq : ∀ b, v = putLiteralTruth b → (mvForceNumd v).numVal = truthNum b := by
    rintro b rfl
    rw [forced_truth, numVal_truth, truthNum]
  have ht : (tailOf cs).num = 0 → (tailOf cs).neg = false := by
    rw [tailOf_eq]
    intro h0
    apply outerNegs_of_not_mem
    rw [← List.count_eq_zero]
    simp only at h0
    omega
  obtain ⟨w, hw, hwl, hwv, hws, hw0⟩ := tailLiteral_num hF (tailOf cs) ht
  obtain ⟨x, hx, hxr, hxv, hxt, hx0⟩ := runChain_num hF.rtNum (replaced cs)
  have hval : w.numVal = x.numVal := by rw [hwv, hxv, chain_num h _ hq]
  have hfold : (LitOp.chain cs v).fold lib = .ok (some w) := by
    rw [LitOp.fold, hw]
    rfl
  rw [LitOp.Right, hfold]
  refine ⟨x, hx, ?_, by rw [number_of_nm hwl.nm, number_of_nm hxr.nm, hval]⟩
  have hcanon : w.str = n2sStr w → (∃ o ∈ replaced cs, o ≠ .comval) → w.text = x.text := by
    intro h1 h2
    rw [hwl.text, h1, hxt h2, n2sStr_congr hwl.valid hxr.valid hval]
  by_cases hops : (tailOf cs).com ≠ 0 ∨ (tailOf cs).num ≠ 0
  · apply hcanon (hws hops)
    rw [tailOf_eq] at hops
    have hmem : UnaryOp.com ∈ cs ∨ UnaryOp.neg ∈ cs ∨ UnaryOp.forcenum ∈ cs := by
      simp only [ne_eq, List.count_eq_zero, not_not, Nat.add_eq_zero_iff, not_and_or] at hops
      exact hops
    rcases hmem with hm | hm | hm
    · exact ⟨_, mem_replaced hm (by simp), by simp⟩
    · exact ⟨_, mem_replaced hm (by simp), by simp⟩
    · exact ⟨_, mem_replaced hm (by simp), by simp⟩
  · push Not at hops
    have hwF := hw0 hops.1 hops.2
    rw [tailOf_eq] at hops
    rcases replaced_of_coercions h hops.1 hops.2 with hr | ⟨b, rfl⟩
    · rw [hwF, hx0 (by simp [hr])]
    · by_cases hall : ∀ o ∈ replaced cs, o = .comval
      · rw [hwF, hx0 hall]
      · push Not at hall
        apply hcanon _ hall
        rw [hwF, forced_truth, ← (litNum_truth b).text, text_truth]

theorem chain_right_iff (hv : LitOk v) {t : Bool} (h : ChainTy v t cs) : (LitOp.chain cs v).Right lib ↔ (LitOp.chain cs v).Faithful lib := by
  cases hl : v.tooLarge with
  | false =>
    refine iff_of_true (chain_right hv h (nm_of_not_tooLarge hl)) ?_
    intro h'
    rw [hl] at h'
    cases h'
  | true =>
    have hnm := nm_of_tooLarge hl
    obtain ⟨hforce, -⟩ := mvForceNum_of_overflow hnm
    obtain ⟨hkeep, herr, hput⟩ := tailLiteral_overflow hnm (tailOf cs)
    obtain ⟨hrun, hid⟩ := runChain_overflow hforce (replaced cs)
    rw [tailOf_eq] at hkeep herr hput
    have hfaith : (LitOp.chain cs v).Faithful lib ↔ .com ∉ cs ∧ cs.count .neg % 2 = 0 := ⟨fun h => h hl, fun h _ => h⟩
    rw [hfaith]
    have hwrong : (∃ w, tailLiteral (tailOf cs) v = .ok w) → (∃ o ∈ cs, o ≠ .comval ∧ o ≠ .cobool) → ¬ (LitOp.chain cs v).Right lib := by
      rintro ⟨w, hw⟩ ⟨o, ho, h1, h2⟩ hright
      have hfold : (LitOp.chain cs v).fold lib = .ok (some w) := by
        rw [LitOp.fold, hw]
        rfl
      rw [LitOp.Right, hfold] at hright
      obtain ⟨x, hx, -⟩ := hright
      rw [LitOp.run, hrun ⟨o, mem_replaced ho h2, h1⟩] at hx
      cases hx
    by_cases hcom : .com ∈ cs
    · have hc : cs.count .com ≠ 0 := fun h0 => List.count_eq_zero.mp h0 hcom
      refine iff_of_false (hwrong ?_ ⟨.com, hcom, by simp, by simp⟩) fun h => h.1 hcom
      rw [tailOf_eq]
      exact hput (Or.inl hc)
    · have hc : cs.count .com = 0 := List.count_eq_zero.mpr hcom
      have houter := outerNegs_eq hcom
      by_cases hodd : cs.count .neg % 2 = 1
      · have hneg : UnaryOp.neg ∈ cs := by
          rw [← List.count_pos_iff]
          omega
        refine iff_of_false (hwrong ?_ ⟨.neg, hneg, by simp, by simp⟩) fun h => by omega
        rw [tailOf_eq]
        refine hput (Or.inr ⟨?_, ?_⟩)
        · simp only
          omega
        · rw [houter]
          simpa using hodd
      · refine iff_of_true ?_ ⟨hcom, by omega⟩
        by_cases hn : cs.count .neg + cs.count .forcenum = 0
        · have hfold : (LitOp.chain cs v).fold lib = .ok (some (mvForceNumd v)) := by
            rw [LitOp.fold, tailOf_eq, hkeep hc hn]
            rfl
          rw [LitOp.Right, hfold]
          rcases replaced_of_coercions h hc hn with hr | ⟨b, rfl⟩
          · exact ⟨_, by rw [LitOp.run, hid (by simp [hr])], rfl, rfl⟩
          · rw [forced_truth, (litNum_truth b).nm] at hnm
            cases hnm
        · have hfold : (LitOp.chain cs v).fold lib = .error .numoflow := by
            rw [LitOp.fold, tailOf_eq, herr hc hn (by rw [houter]; simpa using hodd)]
            rfl
          rw [LitOp.Right, hfold]
          obtain ⟨o, ho, h1, h2⟩ : ∃ o ∈ cs, o ≠ .comval ∧ o ≠ .cobool := by
            by_cases hneg : UnaryOp.neg ∈ cs
            · exact ⟨_, hneg, by simp, by simp⟩
            · have hf : UnaryOp.forcenum ∈ cs := by
                rw [← List.count_pos_iff]
                rw [← List.count_eq_zero] at hneg
                omega
              exact ⟨_, hf, by simp, by simp⟩
          rw [LitOp.run, hrun ⟨o, mem_replaced ho h2, h1⟩]

/-! ## Arithmetic -/

/-- The literal made of an arithmetic result has its number and the canonical string of it. -/
theorem arith_literal (hw : w.NumValid ∨ (w.mvtype.int = false ∧ w.m1 = 0 ∧ w.m0 = 0)) :
    LitNum (s2nCompile (n2s w)) ∧ (s2nCompile (n2s w)).numVal = w.numVal ∧ (s2nCompile (n2s w)).str = n2sStr w := by
  obtain ⟨r, hr, hra, hrn, hrv⟩ : ∃ r, s2n (n2s w) = .ok r ∧ r.mval.mvtype.numApprox = false ∧ r.mval.NumValid ∧
      r.mval.numVal = w.numVal := by
    rcases hw with hw | ⟨hint, h1, h0⟩
    · exact s2n_n2s hw
    · have hz : n2sStr w = [ascZero] := by simp [n2sStr, h1]
      obtain ⟨r, hr, hra, hrn, hrv⟩ := s2n_zero (n2s w) hz rfl
      exact ⟨r, hr, hra, hrn, by rw [hrv]; simp [Mval.numVal, hint, h1, h0]⟩
  obtain ⟨hstr, hflag, hn, hag⟩ := s2n_again hr
  have hstr : r.mval.str = n2sStr w := hstr
  rw [s2nCompile_ok hr]
  refine ⟨⟨hn, hflag rfl, hrn, fun _ => ?_, r, hag, rfl, hrn⟩, hrv, hstr⟩
  rcases hw with hw | ⟨hint, h1, h0⟩
  · rw [hstr, n2sStr_congr hrn hw hrv]
  · have hz : w.numVal = 0 := by simp [Mval.numVal, hint, h1, h0]
    rw [hstr, n2sStr_of_zero hrn (hrv.trans hz)]
    simp [n2sStr, h1]

/-- The value of the literal and of the result agree when the result's string is the canonical one. -/
theorem arith_sameValue_iff (hnm : w.mvtype.nm = true) (hw : w.NumValid ∨ (w.mvtype.int = false ∧ w.m1 = 0 ∧ w.m0 = 0)) :
    SameValue (s2nCompile (n2s w)) w ↔ (w.mvtype.str = true → w.str = n2sStr w) := by
  obtain ⟨hl, hv, hs⟩ := arith_literal hw
  rw [SameValue, number_of_nm hl.nm, number_of_nm hnm, hv, hl.text, hs]
  simp only [and_true]
  cases hstr : w.mvtype.str with
  | true =>
    rw [text_of_str hstr]
    exact ⟨fun h _ => h.symm, fun h => (h rfl).symm⟩
  | false =>
    have : w.text = n2sStr w := by
      rw [Mval.text, mvForceStr, if_neg (by simp [hstr])]
      rfl
    simp [this]

/-- What arithmetic on two numbers leaves: nothing, the literal of the result, or the error. -/
theorem arithLiteral_cases (lib : RtLib) (c : ArithOp) (h0 : (mvForceNumd v0).mvtype.nm = true) (h1 : (mvForceNumd v1).mvtype.nm = true) :
    ((c = .mod → (mvForceNumd v1).m1 = 0) ∧ arithLiteral lib c v0 v1 = .ok none) ∨
      ((c = .mod → (mvForceNumd v1).m1 ≠ 0) ∧ arithLiteral lib c v0 v1 =
        (lib.arith c (mvForceNumd v0) (mvForceNumd v1)).map fun w => some (s2nCompile (n2s w))) := by
  have hnm : (!(mvForceNumd v1).mvtype.nm || !(mvForceNumd v0).mvtype.nm) = false := by simp [h0, h1]
  unfold arithLiteral
  simp only [hnm, Bool.false_eq_true, if_false]
  cases c
  case add => exact Or.inr ⟨by simp, rfl⟩
  case sub => exact Or.inr ⟨by simp, rfl⟩
  case mul => exact Or.inr ⟨by simp, rfl⟩
  case exp =>
    rcases hr : lib.arith .exp (mvForceNumd v0) (mvForceNumd v1) with err | w
    · cases err
      case divzero => exact Or.inl ⟨by simp, rfl⟩
      all_goals exact Or.inr ⟨by simp, rfl⟩
    · simp only
      split
      · exact Or.inl ⟨by simp, rfl⟩
      · exact Or.inr ⟨by simp, rfl⟩
  all_goals
    simp only
    split
    · next hz => exact Or.inl ⟨fun _ => hz, rfl⟩
    · next hz => exact Or.inr ⟨fun _ => hz, rfl⟩

theorem arith_right_iff (hlib : lib.Sound) (c : ArithOp) (hv0 : LitOk v0) (hv1 : LitOk v1) :
    (LitOp.arith c v0 v1).Right lib ↔ (LitOp.arith c v0 v1).Faithful lib := by
  by_cases hl : v0.tooLarge = true ∨ v1.tooLarge = true
  · have hfold : (LitOp.arith c v0 v1).fold lib = .error .numoflow := by
      have hnm : (!(mvForceNumd v1).mvtype.nm || !(mvForceNumd v0).mvtype.nm) = true := by
        rcases hl with hl | hl
        · simp [nm_of_tooLarge hl]
        · simp [nm_of_tooLarge hl]
      rw [LitOp.fold, arithLiteral]
      simp only [hnm, if_true]
    have hrun : (LitOp.arith c v0 v1).run lib = .error .numoflow := by
      rw [LitOp.run]
      cases h0 : v0.tooLarge with
      | true =>
        rw [(mvForceNum_of_overflow (nm_of_tooLarge h0)).1]
        rfl
      | false =>
        have h1 : v1.tooLarge = true := by simpa [h0] using hl
        rw [mvForceNum_of_nm (nm_of_not_tooLarge h0), (mvForceNum_of_overflow (nm_of_tooLarge h1)).1]
        rfl
    refine iff_of_true ?_ ?_
    · rw [LitOp.Right, hfold]
      exact hrun
    · intro _ h0 h1
      simp [h0, h1] at hl
  · push Not at hl
    have hnm0 := nm_of_not_tooLarge (v := v0) (by simpa using hl.1)
    have hnm1 := nm_of_not_tooLarge (v := v1) (by simpa using hl.2)
    have hrun : (LitOp.arith c v0 v1).run lib = lib.arith c (mvForceNumd v0) (mvForceNumd v1) := by
      rw [LitOp.run, mvForceNum_of_nm hnm0, mvForceNum_of_nm hnm1]
      rfl
    have hF0 := hv0.forced hnm0
    have hF1 := hv1.forced hnm1
    rcases arithLiteral_cases lib c hnm0 hnm1 with ⟨hz, hnone⟩ | ⟨hz, hmap⟩
    · refine iff_of_true ?_ ?_
      · rw [LitOp.Right, LitOp.fold, hnone]
        trivial
      · intro hc _ _ hne
        exact absurd (hz hc) hne
    · rcases hr : lib.arith c (mvForceNumd v0) (mvForceNumd v1) with err | w
      · refine iff_of_true ?_ ?_
        · rw [LitOp.Right, LitOp.fold, hmap, hr]
          exact hrun.trans hr
        · rintro rfl _ _ _ hkeep
          rw [hlib.modKeeps _ _ hkeep] at hr
          cases hr
      · have hright : (LitOp.arith c v0 v1).Right lib ↔ SameValue (s2nCompile (n2s w)) w := by
          rw [LitOp.Right, LitOp.fold, hmap]
          simp [Except.map, hrun, hr]
        rw [hright]
        by_cases hkeep : c = .mod ∧ lib.modKeeps (mvForceNumd v0) (mvForceNumd v1) = true
        · -- the dividend itself comes back, with its own string
          obtain ⟨rfl, hkeep⟩ := hkeep
          rw [hlib.modKeeps _ _ hkeep] at hr
          cases hr
          rw [arith_sameValue_iff hnm0 (Or.inl hF0.valid)]
          exact ⟨fun h _ _ _ _ _ => h hF0.str, fun h _ => h rfl (by simpa using hl.1) (by simpa using hl.2) (hz rfl) hkeep⟩
        · have hres := hlib.arith c _ _ w hnm0 hnm1 hF0.valid hF1.valid hr fun hc => by
            cases hk : lib.modKeeps (mvForceNumd v0) (mvForceNumd v1)
            · rfl
            · exact absurd ⟨hc, hk⟩ hkeep
          rw [arith_sameValue_iff hres.nm hres.valid]
          refine iff_of_true hres.str ?_
          intro hc _ _ _ hk
          exact absurd ⟨hc, hk⟩ hkeep

/-! ## Boolean operators -/

theorem mvForceBool_of_nm (h : v.mvtype.nm = true) : mvForceBool v = .ok (decide (v.m1 ≠ 0)) := by
  rw [mvForceBool, mvForceNum_of_nm h]
  rfl

theorem mvForceBool_of_tooLarge (h : v.tooLarge = true) : mvForceBool (mvForceNumd v) = .error .numoflow := by
  rw [mvForceBool, (mvForceNum_of_overflow (nm_of_tooLarge h)).1]
  rfl

/-- On two numbers the compiler finds what evaluation finds. -/
theorem boolLiteral_run (hlib : lib.Sound) (k : BoolKind) {u : Mval} (hu : u.mvtype.nm = true)
    (hv : v.mvtype.nm = true) : boolLiteral lib k u v = .ok none ∨ boolLiteral lib k u v = (k.run lib u v).map some := by
  cases k with
  | and =>
    right
    rw [boolLiteral, BoolKind.run, mvForceBool_of_nm hu, mvForceBool_of_nm hv]
    by_cases h0 : u.m1 = 0 <;> simp [h0, Except.map, bind, Except.bind, pure, Except.pure]
  | or =>
    right
    rw [boolLiteral, BoolKind.run, mvForceBool_of_nm hu, mvForceBool_of_nm hv]
    by_cases h0 : u.m1 = 0 <;> simp [h0, Except.map, bind, Except.bind, pure, Except.pure]
  | contain =>
    right
    rw [boolLiteral, BoolKind.run]
    rcases hm : lib.matchc (mvForceStr v).str (mvForceStr u).str with _ | ⟨res, n⟩
    · rfl
    · obtain ⟨hn, hres⟩ := hlib.matchc _ _ _ _ hm
      have hn' : n = 0 ∨ n = 1 := by omega
      rcases hn' with rfl | rfl
      · simp [Except.map, hres]
      · simp [Except.map, hres.mpr rfl]
  | equ => exact Or.inr rfl
  | follow => exact Or.inr rfl
  | gt =>
    right
    rw [boolLiteral, BoolKind.run]
    cases numcmp u v <;> rfl
  | lt =>
    right
    rw [boolLiteral, BoolKind.run]
    cases numcmp u v <;> rfl
  | pattern =>
    rw [boolLiteral, BoolKind.run]
    cases lib.xecuteLiteralParse with
    | true => exact Or.inl rfl
    | false =>
      cases lib.doPattern u v with
      | none => exact Or.inl rfl
      | some b => exact Or.inr rfl
  | sortsAfter =>
    right
    rw [boolLiteral, BoolKind.run]
    cases sortsAfter lib u v <;> rfl

/-- A string that is a canonic number can be made a number. -/
theorem mvForceNum_of_canonical (hs : w.mvtype.str = true) (h : mvIsCanonical w = true) : ∃ x, mvForceNum w = .ok x := by
  cases hnm : w.mvtype.nm with
  | true => exact ⟨w, mvForceNum_of_nm hnm⟩
  | false =>
    rw [mvForceNum, if_neg (by simp [hnm])]
    rcases hw : s2n w with err | r
    · exfalso
      have hstr : s2n (Mval.ofStr w.str) = .error err := s2n_error_congr (u := w) (v := Mval.ofStr w.str) rfl hw
      rw [mvIsCanonical, if_neg (by simp [hnm]), valIscan, mvForceStr, if_pos hs] at h
      rcases canonic_of_valIscanStr h with hz | ⟨neg, e, ds, htext, hcan⟩
      · obtain ⟨r, hr, -⟩ := s2n_zero (Mval.ofStr w.str) hz rfl
        rw [hr] at hstr
        cases hstr
      · obtain ⟨r, hr, -⟩ := s2n_decStr hcan neg (Mval.ofStr w.str) htext rfl rfl
        rw [hr] at hstr
        cases hstr
    · exact ⟨r.mval, rfl⟩

/-- `sorts_after` compares as numbers only strings that can be made numbers. -/
theorem sortsAfter_ok (lib : RtLib) {u : Mval} (hu : u.mvtype.str = true) (hv : v.mvtype.str = true) : ∃ c, sortsAfter lib u v = .ok c := by
  unfold sortsAfter
  cases lib.localCollNumsAsStrings with
  | true => exact ⟨_, rfl⟩
  | false =>
    cases hcu : mvIsCanonical u with
    | true =>
      cases hcv : mvIsCanonical v with
      | true =>
        obtain ⟨x, hx⟩ := mvForceNum_of_canonical hu hcu
        obtain ⟨y, hy⟩ := mvForceNum_of_canonical hv hcv
        refine ⟨numcmpNums x y, ?_⟩
        rw [numcmp, hx, hy]
        rfl
      | false => exact ⟨_, rfl⟩
    | false =>
      cases mvIsCanonical v with
      | true => exact ⟨_, rfl⟩
      | false => exact ⟨_, rfl⟩

/-- Over a literal too large to be a number evaluation raises the error only where it makes numbers of its operands. -/
theorem run_tooLarge (k : BoolKind) (hv0 : LitOk v0) (hv1 : LitOk v1)
    (hl : v0.tooLarge = true ∨ v1.tooLarge = true) :
    k.run lib (mvForceNumd v0) (mvForceNumd v1) = .error .numoflow ↔ match k with
      | .gt | .lt => True
      | .and => v0.tooLarge = true ∨ (mvForceNumd v0).m1 ≠ 0
      | .or => v0.tooLarge = true ∨ (mvForceNumd v0).m1 = 0
      | _ => False := by
  have hcmp : numcmp (mvForceNumd v0) (mvForceNumd v1) = .error .numoflow := by
    rw [numcmp]
    cases h0 : v0.tooLarge with
    | true =>
      rw [(mvForceNum_of_overflow (nm_of_tooLarge h0)).1]
      rfl
    | false =>
      have h1 : v1.tooLarge = true := by simpa [h0] using hl
      rw [mvForceNum_of_nm (nm_of_not_tooLarge h0), (mvForceNum_of_overflow (nm_of_tooLarge h1)).1]
      rfl
  cases k with
  | and =>
    simp only [BoolKind.run]
    cases h0 : v0.tooLarge with
    | true =>
      rw [mvForceBool_of_tooLarge h0]
      exact iff_of_true rfl (Or.inl rfl)
    | false =>
      have h1 : v1.tooLarge = true := by simpa [h0] using hl
      rw [mvForceBool_of_nm (nm_of_not_tooLarge h0), mvForceBool_of_tooLarge h1]
      by_cases hz : (mvForceNumd v0).m1 = 0
      · simp [hz, bind, Except.bind, pure, Except.pure]
      · simp [hz, bind, Except.bind]
  | or =>
    simp only [BoolKind.run]
    cases h0 : v0.tooLarge with
    | true =>
      rw [mvForceBool_of_tooLarge h0]
      exact iff_of_true rfl (Or.inl rfl)
    | false =>
      have h1 : v1.tooLarge = true := by simpa [h0] using hl
      rw [mvForceBool_of_nm (nm_of_not_tooLarge h0), mvForceBool_of_tooLarge h1]
      by_cases hz : (mvForceNumd v0).m1 = 0
      · simp [hz, bind, Except.bind]
      · simp [hz, bind, Except.bind, pure, Except.pure]
  | contain =>
    rw [BoolKind.run]
    split <;> simp
  | equ => simp [BoolKind.run]
  | follow => simp [BoolKind.run]
  | gt => simp [BoolKind.run, hcmp, Except.map]
  | lt => simp [BoolKind.run, hcmp, Except.map]
  | pattern =>
    rw [BoolKind.run]
    split <;> simp
  | sortsAfter =>
    obtain ⟨c, hc⟩ := sortsAfter_ok lib hv0.force.str hv1.force.str
    simp [BoolKind.run, hc, Except.map]

theorem bool_right_iff (hlib : lib.Sound) (c : BoolOpcode) (hv0 : LitOk v0) (hv1 : LitOk v1) :
    (LitOp.bool c v0 v1).Right lib ↔ (LitOp.bool c v0 v1).Faithful lib := by
  by_cases hl : v0.tooLarge = true ∨ v1.tooLarge = true
  · have hnm : (!(mvForceNumd v0).mvtype.nm || !(mvForceNumd v1).mvtype.nm) = true := by
      rcases hl with hl | hl
      · simp [nm_of_tooLarge hl]
      · simp [nm_of_tooLarge hl]
    have hfold : (LitOp.bool c v0 v1).fold lib = .error .numoflow := by
      rw [LitOp.fold]
      simp only [hnm, if_true]
    have hmap : (LitOp.bool c v0 v1).run lib = .error .numoflow ↔
        c.kind.run lib (mvForceNumd v0) (mvForceNumd v1) = .error .numoflow := by
      rw [LitOp.run]
      cases c.kind.run lib (mvForceNumd v0) (mvForceNumd v1) <;> simp [Except.map]
    rw [LitOp.Right, hfold]
    simp only
    rw [hmap, run_tooLarge c.kind hv0 hv1 hl]
    exact ⟨fun h _ => h, fun h => h hl⟩
  · have hl' := hl
    push Not at hl'
    have hnm0 := nm_of_not_tooLarge (v := v0) (by simpa using hl'.1)
    have hnm1 := nm_of_not_tooLarge (v := v1) (by simpa using hl'.2)
    refine iff_of_true ?_ fun h => absurd h hl
    have hfold : (LitOp.bool c v0 v1).fold lib = (boolLiteral lib c.kind (mvForceNumd v0) (mvForceNumd v1)).map
        fun o => o.map fun tvr => putLiteralTruth (tvr ^^ c.negated) := by
      rw [LitOp.fold]
      simp [hnm0, hnm1]
    rw [LitOp.Right, hfold]
    rcases boolLiteral_run hlib c.kind hnm0 hnm1 with hb | hb
    · rw [hb]
      trivial
    · rw [hb, LitOp.run]
      rcases c.kind.run lib (mvForceNumd v0) (mvForceNumd v1) with err | b
      · rfl
      · exact ⟨_, rfl, rfl, rfl⟩

/-! ## Expressions -/

/-- An operation the folders meet: its operands are literals, and a chain is one of the parser's or stands on a truth value. -/
def Met : LitOp → Prop
  | .chain cs v => LitOk v ∧ ∃ t, ChainTy v t cs
  | .arith _ v0 v1 => LitOk v0 ∧ LitOk v1
  | .bool _ v0 v1 => LitOk v0 ∧ LitOk v1

/-- The trees between parsing and the end of folding: as the parser makes them, but `OC_COMVAL` may stand on the `OC_COBOOL` of a
truth value. -/
inductive Folded : Bool → LitExpr → Prop
  | lit {v : Mval} : LitOk v → Folded false (.lit v)
  | leaf (n : ℕ) : Folded false (.leaf n)
  | neg {e : LitExpr} : Folded false e → Folded false (.unary .neg e)
  | forcenum {e : LitExpr} : Folded false e → Folded false (.unary .forcenum e)
  | cobool {e : LitExpr} : Folded false e → Folded true (.unary .cobool e)
  | com {e : LitExpr} : Folded true e → Folded true (.unary .com e)
  | comval {e : LitExpr} : Folded true e → (∀ e', e ≠ .unary .cobool e') → Folded false (.unary .comval e)
  | truth (b : Bool) : Folded false (.unary .comval (.unary .cobool (.lit (putLiteralTruth b))))
  | arith (c : ArithOp) {l r : LitExpr} : Folded false l → Folded false r → Folded false (.arith c l r)
  | bool (c : BoolOpcode) {l r : LitExpr} : Folded c.kind.logical l → Folded c.kind.logical r → Folded true (.bool c l r)

/-- The chain on top of a tree over a literal. -/
theorem Folded.chain {t : Bool} (h : Folded t e) (hs : e.spine = (cs, .lit v)) : LitOk v ∧ ChainTy v t cs := by
  induction h generalizing cs with
  | lit hv =>
    cases hs
    exact ⟨hv, .nil⟩
  | leaf n => cases hs
  | @neg e _ ih =>
    rcases he : e.spine with ⟨cs', e'⟩
    rw [LitExpr.spine, he] at hs
    cases hs
    obtain ⟨h1, h2⟩ := ih he
    exact ⟨h1, .neg h2⟩
  | @forcenum e _ ih =>
    rcases he : e.spine with ⟨cs', e'⟩
    rw [LitExpr.spine, he] at hs
    cases hs
    obtain ⟨h1, h2⟩ := ih he
    exact ⟨h1, .forcenum h2⟩
  | @cobool e _ ih =>
    rcases he : e.spine with ⟨cs', e'⟩
    rw [LitExpr.spine, he] at hs
    cases hs
    obtain ⟨h1, h2⟩ := ih he
    exact ⟨h1, .cobool h2⟩
  | @com e _ ih =>
    rcases he : e.spine with ⟨cs', e'⟩
    rw [LitExpr.spine, he] at hs
    cases hs
    obtain ⟨h1, h2⟩ := ih he
    exact ⟨h1, .com h2⟩
  | @comval e _ hne ih =>
    rcases he : e.spine with ⟨cs', e'⟩
    rw [LitExpr.spine, he] at hs
    cases hs
    obtain ⟨h1, h2⟩ := ih he
    refine ⟨h1, ?_⟩
    cases h2 with
    | com h => exact .comval (.com h)
    | cobool h =>
      -- the operand would be an `OC_COBOOL`
      cases e with
      | unary o e =>
        obtain ⟨ho, -⟩ := List.cons.inj (Prod.ext_iff.mp he).1
        exact absurd (by rw [ho]) (hne e)
      | lit v => cases he
      | leaf n => cases he
      | arith c l r => cases he
      | bool c l r => cases he
  | truth b =>
    cases hs
    exact ⟨(litNum_truth b).litOk, .truth b rfl⟩
  | arith c => cases hs
  | bool c => cases hs

theorem Folded.literal {t : Bool} (h : Folded t e) (hv : e.literal? = some v) : LitOk v := by
  unfold LitExpr.literal? at hv
  rcases hs : e.spine with ⟨cs, core⟩
  rw [hs] at hv
  cases core with
  | lit w =>
    cases hv
    exact (h.chain hs).1
  | leaf n => cases hv
  | unary o e => cases hv
  | arith c l r => cases hv
  | bool c l r => cases hv

/-- The coercion that is put back makes a truth value of the literal where the chain made one. -/
theorem ChainTy.pendingCoerce {t : Bool} (h : ChainTy v t cs) : (tailOf cs).pendingCoerce = some .cobool ↔ t = true := by
  rw [tailOf_eq]
  induction h with
  | nil => simp [firstCoerce]
  | neg _ ih => simpa [firstCoerce] using ih
  | forcenum _ ih => simpa [firstCoerce] using ih
  | cobool _ _ => simp [firstCoerce]
  | com _ ih => simpa [firstCoerce] using ih
  | comval _ _ => simp [firstCoerce]
  | truth b _ => simp [firstCoerce]

/-- The literal in place of a chain is a literal. -/
theorem tailLiteral_litOk (hv : LitOk v) {t : Tail} (ht : t.num = 0 → t.neg = false) (h : tailLiteral t v = .ok w) : LitOk w := by
  cases hnm : (mvForceNumd v).mvtype.nm with
  | true =>
    obtain ⟨x, hx, hxl, -⟩ := tailLiteral_num (hv.forced hnm) t ht
    rw [hx] at h
    cases h
    exact hxl.litOk
  | false =>
    have hF := hv.force
    obtain ⟨-, hs⟩ := mvForceNum_of_overflow hnm
    unfold tailLiteral at h
    by_cases hc : t.com = 0
    · simp only [hc, ne_eq, not_true_eq_false, if_false] at h
      split at h
      · cases h
        exact hF
      · split at h
        · -- a negation leaves the words alone, and their text takes the string's place
          cases h
          obtain ⟨hint, -⟩ := hF.fresh hnm
          have hneg : negLiteral (mvForceNumd v) = mvForceNumd v := by simp [negLiteral, hint, hnm]
          rw [hneg]
          exact ⟨rfl, fun hn => absurd (hnm.symm.trans hn) (by simp), fun _ => ⟨hint, rfl⟩⟩
        · simp [(s2nCompile_error hs).2.1] at h
    · simp only [ne_eq, hc, not_false_eq_true, if_true] at h
      generalize (if t.com % 2 = 1 then decide ((mvForceNumd (mvForceNumd v)).m1 = 0)
        else decide (¬ (mvForceNumd (mvForceNumd v)).m1 = 0)) = b at h
      have hb := litNum_truth b
      split at h
      · cases h
        exact hb.litOk
      · split at h
        · cases h
          obtain ⟨h1, h2, -⟩ := negLiteral_num hb.nm hb.valid
          exact (litNum_n2s h1 h2).litOk
        · obtain ⟨r, hr, -, hrn⟩ := hb.again
          have hrnm := (s2n_again hr).2.2.1
          rw [s2nCompile_ok hr, if_pos hrnm] at h
          cases h
          exact (litNum_n2s hrnm hrn).litOk

/-- The literal of an arithmetic operation is a literal. -/
theorem arithLiteral_litOk (hlib : lib.Sound) {c : ArithOp} (hv0 : LitOk v0) (hv1 : LitOk v1)
    (h : arithLiteral lib c v0 v1 = .ok (some w)) : LitOk w := by
  by_cases hnm : (mvForceNumd v0).mvtype.nm = true ∧ (mvForceNumd v1).mvtype.nm = true
  · obtain ⟨hnm0, hnm1⟩ := hnm
    rcases arithLiteral_cases lib c hnm0 hnm1 with ⟨-, hnone⟩ | ⟨-, hmap⟩
    · rw [hnone] at h
      cases h
    · rw [hmap] at h
      rcases hr : lib.arith c (mvForceNumd v0) (mvForceNumd v1) with err | x
      · rw [hr] at h
        cases h
      · rw [hr] at h
        cases h
        by_cases hkeep : c = .mod ∧ lib.modKeeps (mvForceNumd v0) (mvForceNumd v1) = true
        · obtain ⟨rfl, hkeep⟩ := hkeep
          rw [hlib.modKeeps _ _ hkeep] at hr
          cases hr
          exact (arith_literal (Or.inl (hv0.forced hnm0).valid)).1.litOk
        · have hres := hlib.arith c _ _ x hnm0 hnm1 (hv0.forced hnm0).valid (hv1.forced hnm1).valid hr fun hc => by
            cases hk : lib.modKeeps (mvForceNumd v0) (mvForceNumd v1)
            · rfl
            · exact absurd ⟨hc, hk⟩ hkeep
          exact (arith_literal hres.valid).1.litOk
  · have hn : (!(mvForceNumd v1).mvtype.nm || !(mvForceNumd v0).mvtype.nm) = true := by
      by_contra hcon
      apply hnm
      simpa [and_comm] using hcon
    unfold arithLiteral at h
    simp only [hn, if_true] at h
    cases h

/-- A folding step that keeps what holds of the trees: its operations are ones the folders meet, and its result is a tree. -/
structure Keeps (x : Folding LitExpr) (Q : LitExpr → Prop) : Prop where
  ops : ∀ op ∈ x.ops, Met op
  res : ∀ e, x.res = .ok e → Q e

theorem Keeps.pure {Q : LitExpr → Prop} (h : Q e) : Keeps (pure e) Q where
  ops := by
    intro op hop
    cases hop
  res := by
    intro e' he'
    cases he'
    exact h

theorem Keeps.bind {x : Folding LitExpr} {f : LitExpr → Folding LitExpr} {Q R : LitExpr → Prop} (hx : Keeps x Q)
    (hf : ∀ e, Q e → Keeps (f e) R) : Keeps (x >>= f) R := by
  change Keeps (Folding.bind x f) R
  unfold Folding.bind
  rcases hr : x.res with err | e
  · exact ⟨hx.ops, nofun⟩
  · have hfe := hf e (hx.res e hr)
    refine ⟨?_, hfe.res⟩
    intro op hop
    rcases List.mem_append.mp hop with hop | hop
    · exact hx.ops op hop
    · exact hfe.ops op hop

theorem Keeps.foldOp {op : LitOp} {keep : LitExpr} {put : Mval → LitExpr} {Q : LitExpr → Prop} (hop : Met op)
    (hkeep : Q keep) (hput : ∀ w, op.fold lib = .ok (some w) → Q (put w)) : Keeps (foldOp lib op keep put) Q where
  ops := by
    intro op' hop'
    obtain rfl := List.mem_singleton.mp hop'
    exact hop
  res := by
    intro e he
    unfold Gtm.foldOp at he
    simp only at he
    rcases hf : op.fold lib with err | o
    · rw [hf] at he
      cases he
    · rw [hf] at he
      cases o with
      | none =>
        cases he
        exact hkeep
      | some w =>
        cases he
        exact hput w hf

theorem unaryTail_keeps (lib : RtLib) {t : Bool} (h : Folded t e) : Keeps (unaryTail lib e) (Folded t) := by
  unfold unaryTail
  rcases hs : e.spine with ⟨cs, core⟩
  cases cs with
  | nil => exact .pure h
  | cons o cs =>
    cases core with
    | lit v =>
      obtain ⟨hv, hty⟩ := h.chain hs
      refine .foldOp ⟨hv, t, hty⟩ h ?_
      intro w hw
      have hlit : LitOk w := by
        rw [LitOp.fold] at hw
        rcases hl : tailLiteral (tailOf (o :: cs)) v with err | x
        · rw [hl] at hw
          cases hw
        · rw [hl] at hw
          cases hw
          refine tailLiteral_litOk hv ?_ hl
          rw [tailOf_eq]
          intro h0
          apply outerNegs_of_not_mem
          rw [← List.count_eq_zero]
          simp only at h0
          omega
      cases t with
      | true =>
        rw [if_pos (ChainTy.pendingCoerce hty |>.mpr rfl)]
        exact .cobool (.lit hlit)
      | false =>
        rw [if_neg fun hp => by simpa using (ChainTy.pendingCoerce hty).mp hp]
        exact .lit hlit
    | leaf n => exact .pure h
    | unary o' e' => exact .pure h
    | arith c l r => exact .pure h
    | bool c l r => exact .pure h

theorem exArith_keeps (hlib : lib.Sound) (c : ArithOp) {l r : LitExpr} (hl : Folded false l) (hr : Folded false r) :
    Keeps (exArith lib c l r) fun e => Folded false e ∧ ∀ x, e ≠ .unary .cobool x := by
  have hkeep : Folded false (.arith c l r) ∧ ∀ x, LitExpr.arith c l r ≠ .unary .cobool x := ⟨.arith c hl hr, nofun⟩
  unfold exArith
  split
  · next v0 v1 =>
    cases hl with
    | lit hv0 =>
      cases hr with
      | lit hv1 => exact .foldOp ⟨hv0, hv1⟩ hkeep fun w hw => ⟨.lit (arithLiteral_litOk hlib hv0 hv1 hw), nofun⟩
  · exact .pure hkeep

theorem bxBoollit_keeps (lib : RtLib) (c : BoolOpcode) {l r : LitExpr} (hl : Folded c.kind.logical l) (hr : Folded c.kind.logical r) :
    Keeps (bxBoollit lib c l r) fun e => Folded true e ∧ ((∀ x, e ≠ .unary .cobool x) ∨
      ∃ b, e = .unary .cobool (.lit (putLiteralTruth b))) := by
  have hkeep : Folded true (.bool c l r) ∧ ((∀ x, LitExpr.bool c l r ≠ .unary .cobool x) ∨
      ∃ b, LitExpr.bool c l r = .unary .cobool (.lit (putLiteralTruth b))) := ⟨.bool c hl hr, Or.inl nofun⟩
  unfold bxBoollit
  split
  · next v0 v1 h0 h1 =>
    refine .foldOp ⟨hl.literal h0, hr.literal h1⟩ hkeep ?_
    intro w hw
    obtain ⟨b, rfl⟩ : ∃ b, w = putLiteralTruth b := by
      rw [LitOp.fold] at hw
      split at hw
      · cases hw
      · rcases hb : boolLiteral lib c.kind (mvForceNumd v0) (mvForceNumd v1) with err | o
        · rw [hb] at hw
          cases hw
        · rw [hb] at hw
          cases o with
          | none => cases hw
          | some b =>
            cases hw
            exact ⟨_, rfl⟩
    exact ⟨.cobool (.lit (litNum_truth b).litOk), Or.inr ⟨b, rfl⟩⟩
  · exact .pure hkeep

/-- Folding what is below the unary operators keeps the trees; an operand of `OC_COMVAL` becomes an `OC_COBOOL` only on a truth
value. -/
theorem foldBelow_keeps (hlib : lib.Sound) {t : Bool} (h : e.Typed t) (hl : e.All LitOk) :
    Keeps (e.foldBelow lib) fun e' => Folded t e' ∧ ((∀ x, e ≠ .unary .cobool x) → (∀ x, e' ≠ .unary .cobool x) ∨
      ∃ b, e' = .unary .cobool (.lit (putLiteralTruth b))) := by
  induction h with
  | lit v => exact .pure ⟨.lit hl, fun h => Or.inl h⟩
  | leaf n => exact .pure ⟨.leaf n, fun h => Or.inl h⟩
  | neg _ ih => exact (ih hl).bind fun e' he' => .pure ⟨.neg he'.1, fun _ => Or.inl nofun⟩
  | forcenum _ ih => exact (ih hl).bind fun e' he' => .pure ⟨.forcenum he'.1, fun _ => Or.inl nofun⟩
  | cobool _ ih => exact (ih hl).bind fun e' he' => .pure ⟨.cobool he'.1, fun h => absurd rfl (h _)⟩
  | com _ ih => exact (ih hl).bind fun e' he' => .pure ⟨.com he'.1, fun _ => Or.inl nofun⟩
  | comval _ hne ih =>
    refine (ih hl).bind fun e' he' => .pure ⟨?_, fun _ => Or.inl nofun⟩
    rcases he'.2 hne with hne' | ⟨b, rfl⟩
    · exact .comval he'.1 hne'
    · exact .truth b
  | arith c _ _ ihl ihr =>
    refine ((ihl hl.1).bind fun l hl' => unaryTail_keeps lib hl'.1).bind fun l hl' => ?_
    refine ((ihr hl.2).bind fun r hr' => unaryTail_keeps lib hr'.1).bind fun r hr' => ?_
    have hkeep := exArith_keeps hlib c hl' hr'
    exact ⟨hkeep.ops, fun e he => ⟨(hkeep.res e he).1, fun _ => Or.inl (hkeep.res e he).2⟩⟩
  | bool c _ _ ihl ihr =>
    refine ((ihl hl.1).bind fun l hl' => unaryTail_keeps lib hl'.1).bind fun l hl' => ?_
    refine ((ihr hl.2).bind fun r hr' => unaryTail_keeps lib hr'.1).bind fun r hr' => ?_
    have hkeep := bxBoollit_keeps lib c hl' hr'
    exact ⟨hkeep.ops, fun e he => ⟨(hkeep.res e he).1, fun _ => (hkeep.res e he).2⟩⟩

theorem lexed_litOk (h : v.Lexed) : LitOk v := by
  cases h with
  | strlit u hu =>
    have hok : LitOk u := ⟨by rw [hu], (by rw [hu]; nofun), fun _ => by rw [hu]; exact ⟨rfl, rfl⟩⟩
    have hforce := hok.force
    rwa [mvForceNumd, if_neg (by rw [hu]; simp)] at hforce
  | numlit u r hu hr => exact (litNum_n2s (s2n_again hr).2.2.1 (s2n_numValid hr (by rw [hu]))).litOk

theorem all_mono {P Q : Mval → Prop} (hPQ : ∀ v, P v → Q v) (h : e.All P) : e.All Q := by
  induction e with
  | lit v => exact hPQ v h
  | leaf n => trivial
  | unary o e ih => exact ih h
  | arith c l r ihl ihr => exact ⟨ihl h.1, ihr h.2⟩
  | bool c l r ihl ihr => exact ⟨ihl h.1, ihr h.2⟩

end LiteralFoldingAux

open LiteralFoldingAux

/-- An operation on literals met while an expression is folded is replaced by what it evaluates to exactly when it is faithful. -/
theorem literal_folding_right_iff (lib : RtLib) (hlib : lib.Sound) (t : Bool) (e : LitExpr) (he : e.Typed t)
    (hl : e.All Mval.Lexed) : ∀ op ∈ (e.fold lib).ops, op.Right lib ↔ op.Faithful lib := by
  have hkeep : Keeps (e.fold lib) (Folded t) :=
    (foldBelow_keeps hlib he (all_mono (fun _ => lexed_litOk) hl)).bind fun e' he' => unaryTail_keeps lib he'.1
  intro op hop
  have hmet := hkeep.ops op hop
  cases op with
  | chain cs v =>
    obtain ⟨hv, t', hty⟩ := hmet
    exact chain_right_iff hv hty
  | arith c v0 v1 => exact arith_right_iff hlib c hmet.1 hmet.2
  | bool c v0 v1 => exact bool_right_iff hlib c hmet.1 hmet.2

/-- The routines in M mode, as far as the expressions below go: sums of integers, and the remainder of zero by a number that is
not an integer. -/
def sampleLib : RtLib where
  arith c u v :=
    match c with
    | .add =>
      if u.mvtype.int && v.mvtype.int && (u.m1 + v.m1).natAbs < mantHi then .ok { mvtype := { nm := true, int := true }, m1 := u.m1 + v.m1 }
      else .error .numoflow
    | .mod => if u.mvtype.int && u.m1 = 0 && !v.mvtype.int then .ok u else .error .divzero
    | _ => .error .numoflow
  modKeeps u v := u.mvtype.int && u.m1 = 0 && !v.mvtype.int
  matchc d s := some (matchb d s)
  doPattern _ _ := none

theorem sampleLib_sound : sampleLib.Sound where
  arith := by
    intro c u v w _ _ _ _ h hc
    cases c
    case add =>
      simp only [sampleLib] at h
      split at h
      · next hcond =>
        cases h
        simp only [Bool.and_eq_true, decide_eq_true_eq] at hcond
        exact ⟨rfl, rfl, Or.inl (by simpa [Mval.NumValid] using hcond.2), nofun⟩
      · cases h
    case mod =>
      have hk := hc rfl
      simp only [sampleLib] at h hk
      rw [hk] at h
      cases h
    all_goals cases h
  modKeeps := by
    intro u v h
    simp only [sampleLib] at h ⊢
    rw [h]
    rfl
  matchc := by
    intro d s res n h
    have h : matchb d s = (res, n) := by simpa [sampleLib] using h
    unfold matchb at h
    split at h
    · cases h
      simp
    · split at h
      · cases h
        simp
      · cases h
        simp

/-- A string literal. -/
def strLit (s : List UInt8) : LitExpr := .lit (s2nCompile (Mval.ofStr s))

theorem strLit_lexed (s : List UInt8) : (strLit s).All Mval.Lexed := .strlit (Mval.ofStr s) rfl

/-- `-"3a"+2` is folded to `-1`, and both operations on the way give what evaluation gives. -/
theorem literal_folding_right_iff_sum :
    let e : LitExpr := .arith .add (.unary .neg (strLit [0x33, 0x61])) (strLit [0x32])
    ((e.fold sampleLib).res.toOption = some (.lit { mvtype := { nm := true, int := true, str := true }, m1 := -1000, str := [0x2d, 0x31] })) ∧
      (e.fold sampleLib).ops.length = 2 ∧ ∀ op ∈ (e.fold sampleLib).ops, op.Right sampleLib := by
  intro e
  have hty : e.Typed false := .arith .add (.neg (.lit _)) (.lit _)
  have hops : (e.fold sampleLib).ops = [.chain [.neg] (s2nCompile (Mval.ofStr [0x33, 0x61])),
      .arith .add (n2s (negLiteral (s2nCompile (Mval.ofStr [0x33, 0x61])))) (s2nCompile (Mval.ofStr [0x32]))] := by decide
  refine ⟨by decide +kernel, by rw [hops]; rfl, ?_⟩
  intro op hop
  refine (literal_folding_right_iff sampleLib sampleLib_sound false e hty ⟨strLit_lexed _, strLit_lexed _⟩ op hop).mpr ?_
  rw [hops] at hop
  rcases List.mem_cons.mp hop with rfl | hop
  · intro hl
    exact absurd hl (by decide)
  · obtain rfl := List.mem_singleton.mp hop
    nofun

/-- An expression of the parser with an operation on literals whose literal or error is not that of evaluation. -/
def LitExpr.FoldedWrongly (lib : RtLib) (e : LitExpr) : Prop :=
  (∃ t, e.Typed t) ∧ e.All Mval.Lexed ∧ ∃ op ∈ (e.fold lib).ops, ¬ op.Right lib

/-- `"1E100"["A"` is an error of the compiler and false at run time, `'"1E100"` is folded to `0` and an error at run time, and
`"abc"#1E30` is folded to `0` and is `abc` at run time. -/
theorem literal_folding_goes_wrong :
    (LitExpr.bool { kind := .contain } (strLit [0x31, 0x45, 0x31, 0x30, 0x30]) (strLit [0x41])).FoldedWrongly sampleLib ∧
      (LitExpr.unary .com (.unary .cobool (strLit [0x31, 0x45, 0x31, 0x30, 0x30]))).FoldedWrongly sampleLib ∧
      (LitExpr.arith .mod (strLit [0x61, 0x62, 0x63]) (strLit [0x31, 0x45, 0x33, 0x30])).FoldedWrongly sampleLib := by
  have hlit : ∀ str : List UInt8, LitOk (s2nCompile (Mval.ofStr str)) := fun str => lexed_litOk (strLit_lexed str)
  refine ⟨?_, ?_, ?_⟩
  · refine ⟨⟨true, .bool _ (.lit _) (.lit _)⟩, ⟨strLit_lexed _, strLit_lexed _⟩,
      .bool { kind := .contain } (s2nCompile (Mval.ofStr [0x31, 0x45, 0x31, 0x30, 0x30])) (s2nCompile (Mval.ofStr [0x41])),
      by decide, ?_⟩
    rw [bool_right_iff sampleLib_sound _ (hlit _) (hlit _)]
    intro hf
    exact hf (Or.inl (by decide))
  · refine ⟨⟨true, .com (.cobool (.lit _))⟩, strLit_lexed _,
      .chain [.com, .cobool] (s2nCompile (Mval.ofStr [0x31, 0x45, 0x31, 0x30, 0x30])), by decide, ?_⟩
    rw [chain_right_iff (hlit _) (.com (.cobool .nil))]
    intro hf
    exact (hf (by decide)).1 (by simp)
  · refine ⟨⟨false, .arith _ (.lit _) (.lit _)⟩, ⟨strLit_lexed _, strLit_lexed _⟩,
      .arith .mod (s2nCompile (Mval.ofStr [0x61, 0x62, 0x63])) (s2nCompile (Mval.ofStr [0x31, 0x45, 0x33, 0x30])),
      by decide, ?_⟩
    rw [arith_right_iff sampleLib_sound _ (hlit _) (hlit _)]
    intro hf
    exact absurd (hf rfl (by decide) (by decide) (by decide) (by decide)) (by decide)

end Gtm
