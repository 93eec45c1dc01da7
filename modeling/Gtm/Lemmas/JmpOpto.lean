import Gtm.Compiler.JmpOpto
import Gtm.Lib.Simulation

/-!
# One triple taken out

The two things `jmp_opto` does to a triple, and why a run does not notice: a jump whose place is reached over triples without code
is a detour of the same run, and a restore that the run comes to with the global target already restored does nothing.
-/

namespace Gtm
namespace JmpOptoAux

open StateTransition Relation

variable {σ G : Type}

/-! ## Triples without code -/

/-- What `skipFrom` passes over has no code, also past the anchor. -/
theorem skipFrom_spec (ch : List JmpTriple) (fuel p : Nat) :
    (p ≤ skipFrom ch fuel p ∧ ∀ k, p ≤ k → k < skipFrom ch fuel p → SkipAt ch k) ∨ ∀ k, k < skipFrom ch fuel p → SkipAt ch k := by
  induction fuel generalizing p with
  | zero => exact Or.inl ⟨Nat.le_refl p, fun k h1 h2 => absurd h2 (by simp only [skipFrom]; omega)⟩
  | succ fuel ih =>
    rw [skipFrom]
    cases ht : ch[p]? with
    | none =>
      rcases ih 0 with ⟨-, h⟩ | h
      · exact Or.inr fun k hk => h k (Nat.zero_le k) hk
      · exact Or.inr h
    | some t =>
      by_cases hs : t.opcode.cgskip = true
      · simp only [hs, if_true]
        rcases ih (p + 1) with ⟨hle, h⟩ | h
        · refine Or.inl ⟨by omega, fun k h1 h2 => ?_⟩
          rcases Nat.eq_or_lt_of_le h1 with rfl | h1
          · intro u hu
            rw [ht] at hu
            cases hu
            exact hs
          · exact h k h1 h2
        · exact Or.inr h
      · simp only [hs, Bool.false_eq_true, if_false]
        exact Or.inl ⟨Nat.le_refl p, fun k h1 h2 => absurd h2 (by omega)⟩

variable {ch : List JmpTriple} {t : JmpTriple} {S : ChainSem σ G} {m : ChainConf σ G}

/-- A triple with code is not passed over. -/
theorem skipFrom_of_code {p : Nat} (ht : ch[p]? = some t) (hc : t.opcode.cgskip = false) (fuel : Nat) : skipFrom ch fuel p = p := by
  cases fuel with
  | zero => rfl
  | succ fuel => simp [skipFrom, ht, hc]

/-- Enough fuel to get to a triple with code further on is enough to stop at one. -/
theorem skipFrom_stops {c : Nat} (hc : ¬ SkipAt ch c) : ∀ fuel p, p ≤ c → c ≤ p + fuel → ¬ SkipAt ch (skipFrom ch fuel p) := by
  intro fuel
  induction fuel with
  | zero =>
    intro p h1 h2
    have : p = c := by omega
    subst this
    exact hc
  | succ fuel ih =>
    intro p h1 h2
    obtain ⟨u, hu, -⟩ : ∃ u, ch[c]? = some u ∧ u.opcode.cgskip ≠ true := by
      unfold SkipAt at hc
      push Not at hc
      exact hc
    have hlt : c < ch.length := (List.getElem?_eq_some_iff.mp hu).1
    obtain ⟨t, ht⟩ : ∃ t, ch[p]? = some t := ⟨_, List.getElem?_eq_getElem (by omega)⟩
    by_cases hs : t.opcode.cgskip = true
    · have hpc : p ≠ c := by
        rintro rfl
        exact hc fun v hv => by rw [ht] at hv; cases hv; exact hs
      simp only [skipFrom, ht, hs, if_true]
      exact ih (p + 1) (by omega) (by omega)
    · simp only [skipFrom, ht, hs, Bool.false_eq_true, if_false]
      exact fun h => hs (h t ht)

/-- Where no triple from `p` on has code, the search goes on at the head of the chain. -/
theorem skipFrom_wraps (fuel : Nat) :
    ∀ d p, p + d = ch.length → (∀ k, p ≤ k → SkipAt ch k) → skipFrom ch (fuel + d + 1) p = skipFrom ch fuel 0 := by
  intro d
  induction d with
  | zero =>
    intro p hp _
    have hn : ch[p]? = none := List.getElem?_eq_none (by omega)
    simp [skipFrom, hn]
  | succ d ih =>
    intro p hp hs
    obtain ⟨t, ht⟩ : ∃ t, ch[p]? = some t := ⟨_, List.getElem?_eq_getElem (by omega)⟩
    have hskip := hs p (Nat.le_refl p) t ht
    rw [skipFrom, ht]
    simp only [hskip, if_true]
    exact ih (p + 1) (by omega) (fun k hk => hs k (by omega))

/-- The fuel of the pass is enough to find a triple with code, if there is one. -/
theorem skipFrom_code {c : Nat} (hc : ¬ SkipAt ch c) {p : Nat} (hp : p ≤ ch.length) : ¬ SkipAt ch (skipFrom ch (ch.length + 1) p) := by
  by_cases h : ∃ k, p ≤ k ∧ ¬ SkipAt ch k
  · obtain ⟨k, hk, hcode⟩ := h
    have hkl : k < ch.length := by
      by_contra hge
      exact hcode fun t ht => absurd (List.getElem?_eq_some_iff.mp ht).1 hge
    exact skipFrom_stops hcode _ p hk (by omega)
  · push Not at h
    have hcp : c < p := by
      by_contra hge
      exact hc (h c (by omega))
    obtain ⟨f, hf⟩ : ∃ f, ch.length + 1 = f + (ch.length - p) + 1 := ⟨p, by omega⟩
    rw [hf, skipFrom_wraps f (ch.length - p) p (by omega) h]
    exact skipFrom_stops hc f 0 (by omega) (by omega)

/-! ## The overlaid triple -/

@[simp] theorem length_noopJump (ch : List JmpTriple) (j : Nat) : (noopJump ch j).length = ch.length := by
  simp [noopJump]

@[simp] theorem length_noopRestore (ch : List JmpTriple) (r : Nat) : (noopRestore ch r).length = ch.length := by
  simp [noopRestore]

theorem getElem?_noopJump_of_ne (ch : List JmpTriple) {j k : Nat} (h : k ≠ j) : (noopJump ch j)[k]? = ch[k]? := by
  rw [noopJump, List.getElem?_modify_ne _ _ (Ne.symm h)]

theorem getElem?_noopRestore_of_ne (ch : List JmpTriple) {r k : Nat} (h : k ≠ r) : (noopRestore ch r)[k]? = ch[k]? := by
  rw [noopRestore, List.getElem?_modify_ne _ _ (Ne.symm h)]

theorem getElem?_noopJump_self {j : Nat} (h : ch[j]? = some t) :
    (noopJump ch j)[j]? = some { t with opcode := .noop, operand0 := .noRef } := by
  rw [noopJump, List.getElem?_modify_eq, h]
  rfl

theorem getElem?_noopRestore_self {r : Nat} (h : ch[r]? = some t) :
    (noopRestore ch r)[r]? = some { t with opcode := .noop, operand0 := .noRef, operand1 := .noRef } := by
  rw [noopRestore, List.getElem?_modify_eq, h]
  rfl

/-! ## Steps -/

theorem step_none (h : ch[m.pc]? = none) : S.step ch m = none := by
  simp [ChainSem.step, h]

theorem step_skip (h : ch[m.pc]? = some t) (hs : t.opcode.cgskip = true) : S.step ch m = some { m with pc := m.pc + 1 } := by
  simp [ChainSem.step, h, ChainSem.stepTriple, hs]

theorem step_save (h : ch[m.pc]? = some t) (hs : t.opcode = .gvsavtarg) :
    S.step ch m = some { m with pc := m.pc + 1, saved := Function.update m.saved m.pc m.targ } := by
  simp [ChainSem.step, h, ChainSem.stepTriple, hs, Opcode.cgskip]

theorem step_restore {s : Nat} (h : ch[m.pc]? = some t) (hs : t.opcode = .gvrectarg) (ho : t.operand0 = .tripRef s) :
    S.step ch m = some { m with pc := m.pc + 1, targ := m.saved s } := by
  simp [ChainSem.step, h, ChainSem.stepTriple, hs, ho, Opcode.cgskip]

theorem step_operation (h : ch[m.pc]? = some t) (hs : t.isOperation = true) : S.step ch m = some (S.operate ch.length m) := by
  have hs' := hs
  simp only [JmpTriple.isOperation, Bool.and_eq_true, Bool.not_eq_true', decide_eq_true_eq] at hs'
  obtain ⟨⟨⟨h1, h2⟩, h3⟩, -⟩ := hs'
  simp only [ChainSem.step, h, ChainSem.stepTriple, h1, Bool.false_eq_true, if_false, if_neg h2, if_neg h3, hs, if_true]

/-- What is left when a triple is none of the others is a jump that is no call. -/
theorem optoJump_of_not (hs : t.opcode.cgskip = false) (h1 : t.opcode ≠ .gvsavtarg)
    (h2 : t.opcode ≠ .gvrectarg) (h3 : t.isOperation = false) : t.opcode.optoJump = true ∧ t.opcode ≠ .forlcldo := by
  simp only [JmpTriple.isOperation, hs, Opcode.optoJump] at h3 ⊢
  revert h1 h2 h3
  cases t.opcode <;> simp [Opcode.isJump, Opcode.isCall]

theorem not_operation_of_optoJump (h : t.opcode.optoJump = true) (hf : t.opcode ≠ .forlcldo) : t.isOperation = false := by
  simp only [JmpTriple.isOperation, Opcode.optoJump] at h ⊢
  revert h hf
  cases t.opcode <;> simp [Opcode.isJump, Opcode.isCall]

theorem cgskip_of_optoJump {c : Opcode} (h : c.optoJump = true) : c.cgskip = false := by
  revert h
  cases c <;> simp [Opcode.optoJump, Opcode.isJump, Opcode.cgskip]

theorem isJump_of_optoJump {c : Opcode} (h : c.optoJump = true) : c.isJump = true := by
  simp only [Opcode.optoJump, Bool.and_eq_true] at h
  exact h.1.1

theorem step_jump {q : Nat}
    (h : ch[m.pc]? = some t) (hj : t.opcode.optoJump = true) (hf : t.opcode ≠ .forlcldo) (ho : t.operand0 = .tjmpRef q) :
    S.step ch m = some { m with pc := if t.opcode = .jmp || S.taken m.pc m.st then q else m.pc + 1 } := by
  have hop := not_operation_of_optoJump hj hf
  have hsk := cgskip_of_optoJump hj
  have h1 : t.opcode ≠ .gvsavtarg := by rintro he; simp [he, Opcode.optoJump, Opcode.isJump] at hj
  have h2 : t.opcode ≠ .gvrectarg := by rintro he; simp [he, Opcode.optoJump, Opcode.isJump] at hj
  simp only [ChainSem.step, h, ChainSem.stepTriple, hsk, Bool.false_eq_true, if_false, if_neg h1, if_neg h2, hop, ho]

/-- The steps of two chains of the same length at a place where they have the same triple. -/
theorem step_congr {ch' : List JmpTriple} (hlen : ch.length = ch'.length) (h : ch[m.pc]? = ch'[m.pc]?) : S.step ch m = S.step ch' m := by
  simp only [ChainSem.step, h, hlen]

/-- A run over triples without code. -/
theorem runs_skip (S : ChainSem σ G) {terminal : Nat} (hlen : terminal ≤ ch.length) :
    ∀ d (m : ChainConf σ G), m.pc + d = terminal → (∀ k, m.pc ≤ k → k < terminal → SkipAt ch k) → S.Runs ch m { m with pc := terminal } := by
  intro d
  induction d with
  | zero =>
    intro m hm _
    have hm' : m.pc = terminal := hm
    rw [← hm']
    exact ReflTransGen.refl
  | succ d ih =>
    intro m hm hs
    obtain ⟨t, ht⟩ : ∃ t, ch[m.pc]? = some t := ⟨_, List.getElem?_eq_getElem (by omega)⟩
    have hstep : S.step ch m = some { m with pc := m.pc + 1 } := step_skip ht (hs m.pc (Nat.le_refl _) (by omega) t ht)
    have hrest := ih { m with pc := m.pc + 1 } (by simp only; omega) (fun k h1 h2 => hs k (by simp only at h1; omega) h2)
    exact ReflTransGen.head hstep hrest

/-! ## A jump taken out -/

/-- A place of the chain and the two ways to go on from it, both over triples without code to the same triple. -/
structure Detour (S : ChainSem σ G) (i terminal : Nat) (ch ch' : List JmpTriple) : Prop where
  length : ch.length = ch'.length
  le : terminal ≤ ch.length
  same : ∀ k, k ≠ i → ch[k]? = ch'[k]?
  skip : ∀ k, i < k → k < terminal → SkipAt ch k
  step : ∀ m : ChainConf σ G, m.pc = i → ∃ p, i < p ∧ p ≤ terminal ∧ S.step ch m = some { m with pc := p }
  step' : ∀ m : ChainConf σ G, m.pc = i → ∃ p, i < p ∧ p ≤ terminal ∧ S.step ch' m = some { m with pc := p }

namespace Detour

variable {S : ChainSem σ G} {i terminal : Nat} {ch ch' : List JmpTriple}

theorem symm (h : Detour S i terminal ch ch') : Detour S i terminal ch' ch where
  length := h.length.symm
  le := by rw [← h.length]; exact h.le
  same := fun k hk => (h.same k hk).symm
  skip := fun k h1 h2 t ht => h.skip k h1 h2 t (by rw [h.same k (by omega)]; exact ht)
  step := h.step'
  step' := h.step

/-- The run on one chain and that on the other: at the same place, or both on the way to the same triple. -/
def Rel (i terminal : Nat) (a b : ChainConf σ G) : Prop :=
  a = b ∨ (i < a.pc ∧ a.pc ≤ terminal ∧ i < b.pc ∧ b.pc ≤ terminal ∧ b = { a with pc := b.pc })

/-- The other run gets to where the triples without code end. -/
theorem runs_terminal (h : Detour S i terminal ch ch') {a b : ChainConf σ G} (hb : i < b.pc) (hbt : b.pc ≤ terminal)
    (he : b = { a with pc := b.pc }) (ha : a.pc = terminal) : S.Runs ch' b a := by
  have hrun := runs_skip S h.symm.le (terminal - b.pc) b (by omega) (fun k h1 h2 => h.symm.skip k (by omega) h2)
  have hea : { b with pc := terminal } = a := by
    rw [he]
    simp only [← ha]
  rwa [hea] at hrun

theorem follows (h : Detour S i terminal ch ch') : Simulation.Follows (S.step ch) (S.step ch') (Rel i terminal) := by
  rintro a a' b hR hstep
  have hother : a.pc ≠ i → S.step ch' a = some a' := fun hne => by
    rw [← step_congr h.length (h.same a.pc hne), hstep]
  rcases hR with rfl | ⟨h1, h2, h3, h4, he⟩
  · by_cases hi : a.pc = i
    · obtain ⟨p, hp1, hp2, hp⟩ := h.step a hi
      obtain ⟨p', hp1', hp2', hp'⟩ := h.step' a hi
      rw [hp] at hstep
      cases hstep
      exact ⟨_, ReflTransGen.single hp', Or.inr ⟨hp1, hp2, hp1', hp2', rfl⟩⟩
    · exact ⟨a', ReflTransGen.single (hother hi), Or.inl rfl⟩
  · rcases Nat.eq_or_lt_of_le h2 with hT | hlt
    · exact ⟨a', (h.runs_terminal h3 h4 he hT).tail (hother (by omega)), Or.inl rfl⟩
    · obtain ⟨t, ht⟩ : ∃ t, ch[a.pc]? = some t := ⟨_, List.getElem?_eq_getElem (by have := h.le; omega)⟩
      rw [step_skip ht (h.skip a.pc h1 hlt t ht)] at hstep
      cases hstep
      exact ⟨b, ReflTransGen.refl, Or.inr ⟨by simp only; omega, by simp only; omega, h3, h4, he⟩⟩

/-- A run of one chain to something that can be observed is one of the other. -/
theorem runs (h : Detour S i terminal ch ch') {m x : ChainConf σ G} (hx : observable ch x = true) (hr : S.Runs ch m x) : S.Runs ch' m x := by
  obtain ⟨b, hb, hR⟩ := h.follows.reaches (Or.inl rfl) hr
  rcases hR with rfl | ⟨h1, h2, h3, h4, he⟩
  · exact hb
  · have hT : x.pc = terminal := by
      by_contra hne
      have hlt : x.pc < terminal := by omega
      obtain ⟨t, ht⟩ : ∃ t, ch[x.pc]? = some t := ⟨_, List.getElem?_eq_getElem (by have := h.le; omega)⟩
      have hs := h.skip x.pc h1 hlt t ht
      simp [observable, ht, JmpTriple.isOperation, hs] at hx
    exact hb.trans (h.runs_terminal h3 h4 he hT)

end Detour

/-- A jump over triples without code may be taken out. -/
theorem detour_noopJump (S : ChainSem σ G) {ch : List JmpTriple} {i terminal q : Nat} {t : JmpTriple} (ht : ch[i]? = some t)
    (hj : t.opcode.optoJump = true) (hf : t.opcode ≠ .forlcldo) (ho : t.operand0 = .tjmpRef q) (hq : i < q) (hqt : q ≤ terminal)
    (hle : terminal ≤ ch.length) (hskip : ∀ k, i < k → k < terminal → SkipAt ch k) : Detour S i terminal ch (noopJump ch i) where
  length := (length_noopJump ch i).symm
  le := hle
  same := fun k hk => (getElem?_noopJump_of_ne ch hk).symm
  skip := hskip
  step := by
    intro m hm
    refine ⟨if t.opcode = .jmp || S.taken m.pc m.st then q else m.pc + 1, ?_, ?_, step_jump (by rw [hm]; exact ht) hj hf ho⟩
    · split <;> omega
    · split <;> omega
  step' := by
    intro m hm
    refine ⟨i + 1, Nat.lt_succ_self i, by omega, ?_⟩
    rw [step_skip (by rw [hm]; exact getElem?_noopJump_self ht) rfl, hm]

/-! ## A restore taken out -/

/-- A restore at `r` of what the triple at `c` saves or restores, with nothing but triples without code between the two. -/
structure Restored (ch : List JmpTriple) (c r s : Nat) : Prop where
  lt : c < r
  save : ∃ t, ch[c]? = some t ∧ t.saveRef c = some (.tripRef s)
  restore : ∃ u, ch[r]? = some u ∧ u.opcode = .gvrectarg ∧ u.operand0 = .tripRef s
  skip : ∀ k, c < k → k < r → SkipAt ch k

/-- Between the two triples the global target is the saved one. -/
def Held (c r s : Nat) (m : ChainConf σ G) : Prop := c < m.pc → m.pc ≤ r → m.targ = m.saved s

variable {S : ChainSem σ G} {ch₀ ch : List JmpTriple} {c r s : Nat}

section
variable (h : Restored ch c r s)
include h

/-- From the first triple up to the restore every triple saves, restores or has no code. -/
theorem Restored.before {k : Nat} {t : JmpTriple} (h1 : c ≤ k) (h2 : k < r) (ht : ch[k]? = some t) :
    t.opcode.cgskip = true ∧ k ≠ c ∨ k = c ∧ t.saveRef c = some (.tripRef s) := by
  rcases Nat.eq_or_lt_of_le h1 with rfl | hlt
  · obtain ⟨t', ht', hs⟩ := h.save
    rw [ht] at ht'
    cases ht'
    exact Or.inr ⟨rfl, hs⟩
  · exact Or.inl ⟨h.skip k hlt h2 t ht, by omega⟩

/-- A step keeps the global target between the two triples, when they are entered nowhere else. -/
theorem held_step (hno : ∀ p, c < p → p ≤ r → ¬ EntryPlace ch₀ p) (hS : S.Enters ch₀)
    (hjump : ∀ (k : Nat) (t : JmpTriple) (q : Nat), ch[k]? = some t → t.opcode.optoJump = true → t.operand0 = .tjmpRef q → EntryPlace ch₀ q)
    (a b : ChainConf σ G) (ha : Held c r s a) (hstep : S.step ch a = some b) : Held c r s b := by
  intro hb1 hb2
  have hrl : r < ch.length := by
    obtain ⟨u, hu, -⟩ := h.restore
    exact (List.getElem?_eq_some_iff.mp hu).1
  cases ht : ch[a.pc]? with
  | none =>
    rw [step_none ht] at hstep
    cases hstep
  | some t =>
    by_cases hsk : t.opcode.cgskip = true
    · rw [step_skip ht hsk] at hstep
      cases hstep
      simp only at hb1 hb2 ⊢
      rcases h.before (by omega) (by omega) ht with ⟨-, hne⟩ | ⟨hc, hs⟩
      · exact ha (by omega) (by omega)
      · exfalso
        revert hs hsk
        simp only [JmpTriple.saveRef]
        cases t.opcode <;> simp [Opcode.cgskip]
    · have hsk' : t.opcode.cgskip = false := by simpa using hsk
      -- falling through to the region is only possible from its first triple
      have hfall : a.pc + 1 = b.pc → a.pc = c ∧ t.saveRef c = some (.tripRef s) := by
        intro hpc
        rcases h.before (by omega) (by omega) ht with ⟨hs, -⟩ | h'
        · exact absurd hs hsk
        · exact h'
      by_cases h1 : t.opcode = .gvsavtarg
      · rw [step_save ht h1] at hstep
        cases hstep
        obtain ⟨hc, hs⟩ := hfall rfl
        simp only [JmpTriple.saveRef, h1, if_true, Option.some.injEq, Oprtype.tripRef.injEq] at hs
        simp [hc, ← hs]
      by_cases h2 : t.opcode = .gvrectarg
      · cases ho : t.operand0 with
        | tripRef s' =>
          rw [step_restore ht h2 ho] at hstep
          cases hstep
          obtain ⟨-, hs⟩ := hfall rfl
          simp only [JmpTriple.saveRef, h2, reduceCtorEq, if_false, if_true, ho, Option.some.injEq, Oprtype.tripRef.injEq] at hs
          simp [← hs]
        | _ => simp [ChainSem.step, ht, ChainSem.stepTriple, h2, ho, Opcode.cgskip] at hstep
      have hsave : t.saveRef c = none := by simp [JmpTriple.saveRef, h1, h2]
      have hne : a.pc + 1 ≠ b.pc := fun hpc => by
        have := (hfall hpc).2
        rw [hsave] at this
        cases this
      by_cases h3 : t.isOperation = true
      · rw [step_operation ht h3] at hstep
        cases hstep
        exfalso
        simp only [ChainSem.operate] at hb1 hb2 hne
        cases hx : (S.exec a.pc a.st a.targ a.saved).2.2.2 with
        | fall => simp [hx] at hne
        | goto p =>
          simp only [hx] at hb1 hb2
          exact hno p hb1 hb2 (hS _ _ _ _ p hx)
        | stop =>
          simp only [hx] at hb2
          omega
      · obtain ⟨hj, hf⟩ := optoJump_of_not hsk' h1 h2 (by simpa using h3)
        exfalso
        cases ho : t.operand0 with
        | tjmpRef q =>
          rw [step_jump ht hj hf ho] at hstep
          cases hstep
          split at hne
          · rename_i hcond
            simp only [hcond, if_true] at hb1 hb2
            exact hno q hb1 hb2 (hjump a.pc t q ht hj ho)
          · exact hne rfl
        | _ => simp [ChainSem.step, ht, ChainSem.stepTriple, hsk', h1, h2, h3, ho] at hstep

/-- With the global target as it was saved, the restore does what a triple without code does. -/
theorem step_noopRestore (m : ChainConf σ G) (hm : Held c r s m) : S.step ch m = S.step (noopRestore ch r) m := by
  by_cases hr : m.pc = r
  · obtain ⟨u, hu, hop, ho⟩ := h.restore
    have htarg : m.targ = m.saved s := hm (by rw [hr]; exact h.lt) (by omega)
    rw [step_restore (by rw [hr]; exact hu) hop ho, step_skip (by rw [hr]; exact getElem?_noopRestore_self hu) rfl, ← htarg]
  · exact step_congr (length_noopRestore ch r).symm (getElem?_noopRestore_of_ne ch hr).symm

/-- A restore that is reached with the global target as it was saved may be taken out. -/
theorem runs_noopRestore (hno : ∀ p, c < p → p ≤ r → ¬ EntryPlace ch₀ p) (hS : S.Enters ch₀)
    (hjump : ∀ (k : Nat) (t : JmpTriple) (q : Nat), ch[k]? = some t → t.opcode.optoJump = true → t.operand0 = .tjmpRef q → EntryPlace ch₀ q)
    {m x : ChainConf σ G} (hm : EntryPlace ch₀ m.pc) : S.Runs ch m x ↔ S.Runs (noopRestore ch r) m x :=
  Simulation.reaches_iff_of_step_eq (held_step h hno hS hjump) (step_noopRestore h)
    (fun h1 h2 => absurd hm (hno m.pc h1 h2))

end

end JmpOptoAux
end Gtm

/-!
## The rounds of `jmp_opto`

What the pass has done when it comes to a triple: the triples it took out were jumps or restores, those ahead of it that are
changed have nothing but triples without code before them, and the chain runs as the original one does.
-/

namespace Gtm
namespace JmpOptoAux

open StateTransition Relation

variable {σ G : Type} {S : ChainSem σ G} {ch₀ ch : List JmpTriple}

/-- A chain that is the original one with some triples taken out, none of them an operation or a save, and that runs the same. -/
structure Reduced (S : ChainSem σ G) (ch₀ ch : List JmpTriple) : Prop where
  length : ch.length = ch₀.length
  changed : ∀ (k : Nat) (t : JmpTriple), ch[k]? = some t → ch₀[k]? = some t ∨
    (t.opcode = .noop ∧ ∃ t₀, ch₀[k]? = some t₀ ∧ t₀.isOperation = false ∧ t₀.opcode ≠ .gvsavtarg)
  runs : ∀ m x : ChainConf σ G, EntryPlace ch₀ m.pc → observable ch₀ x = true → (S.Runs ch₀ m x ↔ S.Runs ch m x)

theorem Reduced.refl (S : ChainSem σ G) (ch : List JmpTriple) : Reduced S ch ch where
  length := rfl
  changed := fun _ _ h => Or.inl h
  runs := fun _ _ _ _ => Iff.rfl

variable {t u : JmpTriple} {q terminal c r cur : Nat} {save : Oprtype}

section
variable (h : Reduced S ch₀ ch)
include h

/-- A triple with code is an original one. -/
theorem Reduced.original {k : Nat} (ht : ch[k]? = some t) (hc : t.opcode.cgskip = false) : ch₀[k]? = some t := by
  rcases h.changed k t ht with h' | ⟨hn, -⟩
  · exact h'
  · rw [hn] at hc
    cases hc

/-- What can be observed is what could be observed before. -/
theorem Reduced.observable_eq (x : ChainConf σ G) : observable ch x = observable ch₀ x := by
  unfold observable
  cases ht : ch[x.pc]? with
  | none =>
    have : ch₀[x.pc]? = none := by
      rw [List.getElem?_eq_none_iff] at ht ⊢
      rwa [← h.length]
    rw [this]
  | some t =>
    rcases h.changed x.pc t ht with h' | ⟨hn, t₀, ht₀, hop, -⟩
    · rw [h']
    · rw [ht₀]
      simp only [hop]
      simp [JmpTriple.isOperation, hn, Opcode.cgskip]

/-- The place of a jump that is left is an entry place of the original chain. -/
theorem Reduced.jump_entry (hfin : FinishedChain ch₀) (k : Nat) (t : JmpTriple) (q : Nat)
    (ht : ch[k]? = some t) (hj : t.opcode.optoJump = true) (ho : t.operand0 = .tjmpRef q) : EntryPlace ch₀ q := by
  have ht₀ := h.original ht (cgskip_of_optoJump hj)
  refine Or.inr (Or.inr fun u hu => Or.inl fun hnil => ?_)
  have hk : k ∈ u.jmplist := (hfin.jmplist q u hu k).mpr ⟨t, ht₀, isJump_of_optoJump hj, ho⟩
  rw [hnil] at hk
  cases hk

/-- The chain with one more jump taken out. -/
theorem Reduced.noopJump {i : Nat} (ht : ch[i]? = some t)
    (hj : t.opcode.optoJump = true) (hf : t.opcode ≠ .forlcldo) (ho : t.operand0 = .tjmpRef q) (hq : i < q) (hqt : q ≤ terminal)
    (hle : terminal ≤ ch.length) (hskip : ∀ k, i < k → k < terminal → SkipAt ch k) : Reduced S ch₀ (noopJump ch i) := by
  have hd := detour_noopJump S ht hj hf ho hq hqt hle hskip
  have hch : ∀ (k : Nat) (u : JmpTriple), (Gtm.noopJump ch i)[k]? = some u → ch₀[k]? = some u ∨
      (u.opcode = .noop ∧ ∃ t₀, ch₀[k]? = some t₀ ∧ t₀.isOperation = false ∧ t₀.opcode ≠ .gvsavtarg) := by
    intro k u hu
    by_cases hk : k = i
    · subst hk
      rw [getElem?_noopJump_self ht] at hu
      cases hu
      refine Or.inr ⟨rfl, t, h.original ht (cgskip_of_optoJump hj), not_operation_of_optoJump hj hf, ?_⟩
      rintro he
      simp [he, Opcode.optoJump, Opcode.isJump] at hj
    · rw [getElem?_noopJump_of_ne ch hk] at hu
      exact h.changed k u hu
  have hobs : ∀ x : ChainConf σ G, observable ch₀ x = true → observable (Gtm.noopJump ch i) x = true := by
    intro x hx
    rw [← h.observable_eq] at hx
    unfold observable at hx ⊢
    by_cases hk : x.pc = i
    · rw [hk, ht] at hx
      simp [not_operation_of_optoJump hj hf] at hx
    · rw [getElem?_noopJump_of_ne ch hk]
      exact hx
  refine ⟨by rw [length_noopJump]; exact h.length, hch, fun m x hm hx => ?_⟩
  rw [h.runs m x hm hx]
  exact ⟨hd.runs (by rw [h.observable_eq]; exact hx), hd.symm.runs (hobs x hx)⟩

/-- The chain with one more restore taken out. -/
theorem Reduced.noopRestore (hfin : FinishedChain ch₀) (hS : S.Enters ch₀) {s : Nat}
    (hr : Restored ch c r s) (hno : ∀ p, c < p → p ≤ r → ¬ EntryPlace ch₀ p) : Reduced S ch₀ (noopRestore ch r) := by
  obtain ⟨u, hu, hop, -⟩ := hr.restore
  refine ⟨by rw [length_noopRestore]; exact h.length, ?_, fun m x hm hx => ?_⟩
  · intro k v hv
    by_cases hk : k = r
    · subst hk
      rw [getElem?_noopRestore_self hu] at hv
      cases hv
      refine Or.inr ⟨rfl, u, h.original hu (by rw [hop]; rfl), ?_, by rw [hop]; decide⟩
      simp [JmpTriple.isOperation, hop]
    · rw [getElem?_noopRestore_of_ne ch hk] at hv
      exact h.changed k v hv
  · rw [h.runs m x hm hx]
    exact runs_noopRestore hr hno hS (h.jump_entry hfin) hm

end

/-! ## A save or a restore -/

/-- A round at a save or a restore `c`: up to place `q` nothing after it has code and nothing is entered, and from there on the
chain is the original one. -/
structure RestoreRound (ch₀ ch : List JmpTriple) (c q : Nat) (save : Oprtype) : Prop where
  le : c ≤ q
  first : ∃ t, ch[c]? = some t ∧ t.saveRef c = some save
  last : ∃ t, ch₀[q]? = some t ∧ t.saveRef q = some save
  skip : ∀ k, c < k → k ≤ q → SkipAt ch k
  closed : ∀ k, c < k → k ≤ q → ¬ EntryPlace ch₀ k
  ahead : ∀ k, q < k → ch[k]? = ch₀[k]?

theorem cgskip_of_saveRef (h : t.saveRef c = some save) : t.opcode.cgskip = false := by
  revert h
  simp only [JmpTriple.saveRef]
  cases t.opcode <;> simp [Opcode.cgskip]

theorem superfluous_iff : u.superfluous save = true ↔ u.opcode = .gvrectarg ∧ u.operand0 = save ∧ u.jmplist = [] := by
  simp [JmpTriple.superfluous, and_assoc]

/-- No triple up to a superfluous restore is entered other than from the one before. -/
theorem RestoreRound.closed_next (hg : RestoresUnentered ch₀)
    (h : RestoreRound ch₀ ch c q save) (hu : ch₀[r]? = some u) (hsup : u.superfluous save = true) (hqr : q < r)
    (hskip : ∀ k, q < k → k < r → SkipAt ch₀ k) (p : Nat) (hp : c < p) (hpr : p ≤ r) : ¬ EntryPlace ch₀ p := by
  rcases Nat.lt_or_ge q p with hqp | hpq
  · obtain ⟨t, ht, hs⟩ := h.last
    have hsup' := superfluous_iff.mp hsup
    have hlt : r < ch₀.length := (List.getElem?_eq_some_iff.mp hu).1
    rintro (h0 | hbefore | hself)
    · omega
    · -- the triple before is the save, the restore or one without code
      obtain ⟨v, hv⟩ : ∃ v, ch₀[p - 1]? = some v := ⟨_, List.getElem?_eq_getElem (by omega)⟩
      obtain ⟨hv1, hv2⟩ := hbefore v hv
      by_cases hpq : p - 1 = q
      · rw [hpq, ht] at hv
        cases hv
        rw [hpq, hs] at hv2
        cases hv2
      · rw [hskip (p - 1) (by omega) (by omega) v hv] at hv1
        cases hv1
    · obtain ⟨v, hv⟩ : ∃ v, ch₀[p]? = some v := ⟨_, List.getElem?_eq_getElem (by omega)⟩
      rcases Nat.eq_or_lt_of_le hpr with rfl | hlt'
      · rw [hu] at hv
        cases hv
        rcases hself u hu with hj | ⟨-, hop⟩
        · exact hj hsup'.2.2
        · exact hop hsup'.1
      · rcases hself v hv with hj | ⟨hc, -⟩
        · exact hj (hg q t save r u ht hs hqr hu hsup hskip p v hqp hlt' hv)
        · rw [hskip p hqp hlt' v hv] at hc
          cases hc
  · exact h.closed p hp hpq

/-- The restore that a round finds stands after everything the round has looked at. -/
theorem RestoreRound.next_lt (hr : Reduced S ch₀ ch) (hfin : FinishedChain ch₀)
    (h : RestoreRound ch₀ ch c q save) (hu : ch[skipFrom ch (ch.length + 1) (c + 1)]? = some u) (hsup : u.superfluous save = true) :
    q < skipFrom ch (ch.length + 1) (c + 1) ∧ ∀ k, c < k → k < skipFrom ch (ch.length + 1) (c + 1) → SkipAt ch k := by
  obtain ⟨hop, -, -⟩ := superfluous_iff.mp hsup
  have hcode : u.opcode.cgskip = false := by rw [hop]; rfl
  rcases skipFrom_spec ch (ch.length + 1) (c + 1) with ⟨hle, hskip⟩ | hall
  · refine ⟨?_, fun k h1 h2 => hskip k h1 h2⟩
    by_contra hle'
    have := h.skip _ (by omega) (Nat.le_of_not_lt hle') u hu
    rw [hcode] at this
    cases this
  · -- past the anchor the search would have met the save of this restore
    exfalso
    obtain ⟨s, t, -, hlt, ht, hsav⟩ := hfin.restore _ u (hr.original hu hcode) hop
    obtain ⟨t', ht'⟩ : ∃ t', ch[s]? = some t' :=
      ⟨_, List.getElem?_eq_getElem (by rw [hr.length]; exact (List.getElem?_eq_some_iff.mp ht).1)⟩
    have hskip := hall s hlt t' ht'
    rcases hr.changed s t' ht' with h' | ⟨-, t₀, ht₀, -, hne⟩
    · rw [ht] at h'
      cases h'
      rw [hsav] at hskip
      cases hskip
    · rw [ht] at ht₀
      cases ht₀
      exact hne hsav

/-- The rounds at a save or a restore. -/
theorem optoAt_restores (hfin : FinishedChain ch₀) (hg : RestoresUnentered ch₀) (hS : S.Enters ch₀)
    (fuel : Nat) : ∀ (ch : List JmpTriple) (q : Nat), Reduced S ch₀ ch → RestoreRound ch₀ ch c q save →
      Reduced S ch₀ (optoAt c fuel ch) ∧ ∃ q', RestoreRound ch₀ (optoAt c fuel ch) c q' save ∧
        ∀ k, k ≤ c → (optoAt c fuel ch)[k]? = ch[k]? := by
  induction fuel with
  | zero => exact fun ch q hr h => ⟨hr, q, h, fun _ _ => rfl⟩
  | succ fuel ih =>
    intro ch q hr h
    obtain ⟨t, ht, hs⟩ := h.first
    cases hu : ch[skipFrom ch (ch.length + 1) (c + 1)]? with
    | none =>
      have he : optoAt c (fuel + 1) ch = ch := by simp only [optoAt, ht, hs, hu]
      rw [he]
      exact ⟨hr, q, h, fun _ _ => rfl⟩
    | some u =>
      by_cases hsup : u.superfluous save = true
      · have he : optoAt c (fuel + 1) ch = optoAt c fuel (noopRestore ch (skipFrom ch (ch.length + 1) (c + 1))) := by
          simp only [optoAt, ht, hs, hu, hsup, if_true]
        rw [he]
        obtain ⟨hqr, hskip⟩ := h.next_lt hr hfin hu hsup
        generalize skipFrom ch (ch.length + 1) (c + 1) = r at hu hqr hskip
        obtain ⟨hop, hsave, -⟩ := superfluous_iff.mp hsup
        have hu₀ : ch₀[r]? = some u := by rw [← h.ahead r hqr]; exact hu
        have hskip₀ : ∀ k, q < k → k < r → SkipAt ch₀ k := by
          intro k h1 h2 v hv
          exact hskip k (by have := h.le; omega) h2 v (by rw [h.ahead k h1]; exact hv)
        have hclosed : ∀ p, c < p → p ≤ r → ¬ EntryPlace ch₀ p := h.closed_next hg hu₀ hsup hqr hskip₀
        obtain ⟨s, -, hs', -⟩ := hfin.restore r u hu₀ hop
        have hcr : c < r := Nat.lt_of_le_of_lt h.le hqr
        have hrest : Restored ch c r s := ⟨hcr, ⟨t, ht, by rw [hs, ← hsave, hs']⟩, ⟨u, hu, hop, hs'⟩, hskip⟩
        have hr' := hr.noopRestore hfin hS hrest hclosed
        have hround : RestoreRound ch₀ (noopRestore ch r) c r save := by
          refine ⟨by omega, ⟨t, ?_, hs⟩, ⟨u, hu₀, ?_⟩, ?_, hclosed, ?_⟩
          · rw [getElem?_noopRestore_of_ne ch (by omega)]
            exact ht
          · simp [JmpTriple.saveRef, hop, hsave]
          · intro k h1 h2 v hv
            by_cases hk : k = r
            · subst hk
              rw [getElem?_noopRestore_self hu] at hv
              cases hv
              rfl
            · rw [getElem?_noopRestore_of_ne ch hk] at hv
              exact hskip k h1 (by omega) v hv
          · intro k hk
            rw [getElem?_noopRestore_of_ne ch (by omega)]
            exact h.ahead k (by omega)
        obtain ⟨hr'', q', hround', hbefore⟩ := ih _ r hr' hround
        refine ⟨hr'', q', hround', fun k hk => ?_⟩
        rw [hbefore k hk, getElem?_noopRestore_of_ne ch (by omega)]
      · have he : optoAt c (fuel + 1) ch = ch := by
          simp only [optoAt, ht, hs, hu, hsup, Bool.false_eq_true, if_false]
        rw [he]
        exact ⟨hr, q, h, fun _ _ => rfl⟩

/-! ## A jump -/

/-- No jump that the pass has gone by goes to the triple right after it, unless that one has no code. -/
def Settled (ch₀ ch : List JmpTriple) (cur : Nat) : Prop :=
  ∀ (j : Nat) (t : JmpTriple), j < cur → ch[j]? = some t → t.opcode.optoJump = true → t.operand0 = .tjmpRef (j + 1) →
    SkipAt ch₀ (j + 1)

/-- The walk back from the jump before `terminal`, with the triples from place `k` on done. -/
structure Walk (ch₀ ch : List JmpTriple) (terminal k : Nat) : Prop where
  le : k ≤ terminal
  ahead : ∀ j, terminal ≤ j → ch[j]? = ch₀[j]?
  onto : ∀ j, k ≤ j → j < terminal → JumpsOnto ch₀ terminal j
  skip : ∀ j, k ≤ j → j < terminal → SkipAt ch j
  code : k < terminal → ¬ SkipAt ch₀ terminal
  settled : Settled ch₀ ch (terminal - 1)

/-- What a jump has to be for the walk to take it out. -/
theorem Walk.jumpsOnto {k : Nat} (hw : Walk ch₀ ch terminal (k + 1))
    (ht : ch[k]? = some t) (hj : t.opcode.optoJump = true) (ho : t.operand0 = .tjmpRef q) (hql : q ≤ ch.length)
    (hskip : skipFrom ch (ch.length + 1) q = terminal) : k < q ∧ q ≤ terminal ∧ (q = k + 1 → terminal = k + 1) ∧ ¬ SkipAt ch₀ terminal := by
  have hcode := cgskip_of_optoJump hj
  have hk : ¬ SkipAt ch k := fun h => by
    have := h t ht
    rw [hcode] at this
    cases this
  have hterm : ¬ SkipAt ch terminal := by
    have := skipFrom_code hk hql
    rwa [hskip] at this
  have hterm₀ : ¬ SkipAt ch₀ terminal := by
    unfold SkipAt at hterm ⊢
    rwa [hw.ahead terminal (Nat.le_refl _)] at hterm
  have hlt : k < terminal := hw.le
  rcases skipFrom_spec ch (ch.length + 1) q with ⟨hle, hs⟩ | hall
  · rw [hskip] at hle hs
    have hkq : k < q := by
      by_contra hge
      exact hk (hs k (by omega) hlt)
    refine ⟨hkq, hle, fun hq => ?_, hterm₀⟩
    by_contra hne
    -- the triple after this jump is a jump of the walk, so this one would have been taken out in its own round
    obtain ⟨u, -, hu, huj, -⟩ := hw.onto (k + 1) (Nat.le_refl _) (by omega)
    have := hw.settled k t (by omega) ht hj (by rw [ho, hq]) u hu
    rw [cgskip_of_optoJump huj] at this
    cases this
  · rw [hskip] at hall
    exact absurd (hall k hlt) hk

/-- The walk back changes nothing from its start on. -/
theorem getElem?_dropJumps (terminal k : Nat) : ∀ (ch : List JmpTriple) (j : Nat), k ≤ j → (dropJumps terminal k ch)[j]? = ch[j]? := by
  induction k with
  | zero => exact fun _ _ _ => rfl
  | succ k ih =>
    intro ch j hle
    rw [dropJumps]
    split
    · split
      · split
        · rw [ih _ j (by omega), getElem?_noopJump_of_ne ch (by omega)]
        · rfl
      · rfl
    · rfl

/-- The walk back from a jump. -/
theorem dropJumps_spec (hfin : FinishedChain ch₀) (hf : ForCallsKept ch₀) (hlen : terminal ≤ ch₀.length) (k : Nat) :
    ∀ ch : List JmpTriple, Reduced S ch₀ ch → Walk ch₀ ch terminal k →
      Reduced S ch₀ (dropJumps terminal k ch) ∧ Settled ch₀ (dropJumps terminal k ch) (terminal - 1) := by
  induction k with
  | zero => exact fun ch hr hw => ⟨hr, hw.settled⟩
  | succ k ih =>
    intro ch hr hw
    obtain ⟨t, ht⟩ : ∃ t, ch[k]? = some t := ⟨_, List.getElem?_eq_getElem (by have := hw.le; have := hr.length; omega)⟩
    by_cases hgo : ∃ q, t.opcode.optoJump = true ∧ t.operand0 = .tjmpRef q ∧ skipFrom ch (ch.length + 1) q = terminal
    · obtain ⟨q, hj, ho, hskip⟩ := hgo
      have he : dropJumps terminal (k + 1) ch = dropJumps terminal k (noopJump ch k) := by
        simp only [dropJumps, ht, hj, ho, hskip, if_true]
      rw [he]
      have ht₀ := hr.original ht (cgskip_of_optoJump hj)
      have hql : q ≤ ch.length := by
        obtain ⟨q', ho', hq'⟩ := hfin.jump k t ht₀ (isJump_of_optoJump hj)
        rw [ho] at ho'
        cases ho'
        rw [hr.length]
        omega
      obtain ⟨hkq, hqt, hnext, hcode⟩ := hw.jumpsOnto ht hj ho hql hskip
      have honto : ∀ j, k ≤ j → j < terminal → JumpsOnto ch₀ terminal j := by
        intro j h1 h2
        rcases Nat.eq_or_lt_of_le h1 with rfl | h1
        · exact ⟨t, q, ht₀, hj, ho, hkq, hqt, hnext⟩
        · exact hw.onto j h1 h2
      have hfor : t.opcode ≠ .forlcldo := fun h => hf k t terminal ht₀ h hw.le hcode honto
      have hr' := hr.noopJump ht hj hfor ho hkq hqt (by rw [hr.length]; exact hlen) (fun j h1 h2 => hw.skip j h1 h2)
      have hw' : Walk ch₀ (noopJump ch k) terminal k := by
        refine ⟨by have := hw.le; omega, ?_, honto, ?_, fun _ => hcode, ?_⟩
        · intro j hle
          rw [getElem?_noopJump_of_ne ch (by have := hw.le; omega)]
          exact hw.ahead j hle
        · intro j h1 h2 v hv
          by_cases hjk : j = k
          · subst hjk
            rw [getElem?_noopJump_self ht] at hv
            cases hv
            rfl
          · rw [getElem?_noopJump_of_ne ch hjk] at hv
            exact hw.skip j (by omega) h2 v hv
        · intro j u hlt hu huj huo
          by_cases hjk : j = k
          · subst hjk
            rw [getElem?_noopJump_self ht] at hu
            cases hu
            cases huj
          · rw [getElem?_noopJump_of_ne ch hjk] at hu
            exact hw.settled j u hlt hu huj huo
      exact ih _ hr' hw'
    · have he : dropJumps terminal (k + 1) ch = ch := by
        simp only [dropJumps, ht]
        split
        · rename_i q hj ho
          rw [if_neg fun hs => hgo ⟨q, hj, ho, hs⟩]
        · rfl
      rw [he]
      exact ⟨hr, hw.settled⟩

/-- A jump to a triple with code right after it is taken out. -/
theorem dropJumps_self (ht : ch[cur]? = some t) (hj : t.opcode.optoJump = true)
    (ho : t.operand0 = .tjmpRef (cur + 1)) (hcode : ¬ SkipAt ch (cur + 1)) :
    dropJumps (cur + 1) (cur + 1) ch = dropJumps (cur + 1) cur (noopJump ch cur) := by
  unfold SkipAt at hcode
  push Not at hcode
  obtain ⟨u, hu, hc⟩ := hcode
  have hskip : skipFrom ch (ch.length + 1) (cur + 1) = cur + 1 := skipFrom_of_code hu (by simpa using hc) _
  simp only [dropJumps, ht, hj, ho, hskip, if_true]

/-! ## The whole pass -/

/-- The state of the pass when it comes to the triple at place `cur`. -/
structure Progress (S : ChainSem σ G) (ch₀ ch : List JmpTriple) (cur : Nat) : Prop where
  reduced : Reduced S ch₀ ch
  ahead : ∀ k, cur ≤ k → ch[k]? ≠ ch₀[k]? → ∀ p, cur ≤ p → p ≤ k → SkipAt ch p
  settled : Settled ch₀ ch cur

/-- From a triple with code on, the chain is still the original one. -/
theorem Progress.ahead_of_code (h : Progress S ch₀ ch cur) (ht : ch[cur]? = some t)
    (hc : t.opcode.cgskip = false) (k : Nat) (hk : cur ≤ k) : ch[k]? = ch₀[k]? := by
  by_contra hne
  have := h.ahead k hk hne cur (Nat.le_refl _) hk t ht
  rw [hc] at this
  cases this

/-- A triple that is no jump leaves the pass settled. -/
theorem Settled.succ (h : Settled ch₀ ch cur)
    (hlast : ∀ t, ch[cur]? = some t → t.opcode.optoJump = true → t.operand0 = .tjmpRef (cur + 1) → SkipAt ch₀ (cur + 1)) :
    Settled ch₀ ch (cur + 1) := by
  intro j t hlt ht hj ho
  rcases Nat.eq_or_lt_of_le (Nat.le_of_lt_succ hlt) with rfl | hlt
  · exact hlast t ht hj ho
  · exact h j t hlt ht hj ho

theorem not_optoJump_of_saveRef (h : t.saveRef c = some save) : t.opcode.optoJump = false := by
  revert h
  simp only [JmpTriple.saveRef]
  cases t.opcode <;> simp [Opcode.optoJump, Opcode.isJump]

section
variable (hfin : FinishedChain ch₀) (hg : RestoresUnentered ch₀) (hf : ForCallsKept ch₀) (hS : S.Enters ch₀)
include hfin hg hf hS

/-- One round of the pass. -/
theorem Progress.optoAt (hcur : cur < ch₀.length) (fuel : Nat) (h : Progress S ch₀ ch cur) :
    Progress S ch₀ (optoAt cur (fuel + 1) ch) (cur + 1) := by
  obtain ⟨t, ht⟩ : ∃ t, ch[cur]? = some t := ⟨_, List.getElem?_eq_getElem (by rw [h.reduced.length]; exact hcur)⟩
  cases hs : t.saveRef cur with
  | some save =>
    have hcode := cgskip_of_saveRef hs
    have hahead := h.ahead_of_code ht hcode
    have hround : RestoreRound ch₀ ch cur cur save :=
      ⟨Nat.le_refl _, ⟨t, ht, hs⟩, ⟨t, by rw [← hahead cur (Nat.le_refl _)]; exact ht, hs⟩, fun k h1 h2 => by omega,
        fun k h1 h2 => by omega, fun k hk => hahead k (by omega)⟩
    obtain ⟨hr, q, hround', hbefore⟩ := optoAt_restores hfin hg hS (fuel + 1) ch cur h.reduced hround
    refine ⟨hr, fun k hk hne p h1 h2 => ?_, Settled.succ (fun j u hlt hu => ?_) fun u hu hj => ?_⟩
    · refine hround'.skip p (by omega) ?_
      by_contra hge
      exact hne (hround'.ahead k (by omega))
    · rw [hbefore j (by omega)] at hu
      exact h.settled j u hlt hu
    · rw [hbefore cur (Nat.le_refl _), ht] at hu
      cases hu
      rw [not_optoJump_of_saveRef hs] at hj
      cases hj
  | none =>
    by_cases hj : t.opcode.optoJump = true
    · have he : Gtm.optoAt cur (fuel + 1) ch = dropJumps (cur + 1) (cur + 1) ch := by
        simp only [Gtm.optoAt, ht, hs, hj, if_true]
      rw [he]
      have hahead := h.ahead_of_code ht (cgskip_of_optoJump hj)
      have hwalk : Walk ch₀ ch (cur + 1) (cur + 1) :=
        ⟨Nat.le_refl _, fun j hle => hahead j (by omega), fun j h1 h2 => by omega, fun j h1 h2 => by omega, fun hlt => by omega,
          h.settled⟩
      have hbehind := getElem?_dropJumps (cur + 1) (cur + 1) ch
      obtain ⟨hr, hset⟩ := dropJumps_spec hfin hf hcur (cur + 1) ch h.reduced hwalk
      refine ⟨hr, fun k hk hne => ?_, Settled.succ hset fun u hu huj huo => ?_⟩
      · exact absurd ((hbehind k hk).trans (hahead k (by omega))) hne
      · by_contra hcode
        have hu₀ := hr.original hu (cgskip_of_optoJump huj)
        rw [← hahead cur (Nat.le_refl _), ht] at hu₀
        cases hu₀
        have hcode' : ¬ SkipAt ch (cur + 1) := by
          unfold SkipAt at hcode ⊢
          rwa [hahead (cur + 1) (by omega)]
        rw [dropJumps_self ht hj huo hcode', getElem?_dropJumps (cur + 1) cur _ cur (Nat.le_refl _), getElem?_noopJump_self ht] at hu
        have hop : Opcode.noop = t.opcode := congrArg JmpTriple.opcode (Option.some.inj hu)
        rw [← hop] at huj
        cases huj
    · have he : Gtm.optoAt cur (fuel + 1) ch = ch := by
        simp only [Gtm.optoAt, ht, hs, hj, Bool.false_eq_true, if_false]
      rw [he]
      refine ⟨h.reduced, fun k hk hne p h1 h2 => h.ahead k (by omega) hne p (by omega) h2, h.settled.succ fun u hu huj => ?_⟩
      rw [ht] at hu
      cases hu
      exact absurd huj hj

/-- The pass as far as place `n`. -/
theorem progress_foldl (n : Nat)
    (hn : n ≤ ch₀.length) : Progress S ch₀ ((List.range n).foldl (fun c cur => optoAt cur (c.length + 1) c) ch₀) n := by
  induction n with
  | zero =>
    refine ⟨Reduced.refl S ch₀, fun k _ hne => absurd rfl hne, fun j t hlt => absurd hlt (Nat.not_lt_zero j)⟩
  | succ n ih =>
    rw [List.range_succ, List.foldl_append]
    exact (ih (by omega)).optoAt hfin hg hf hS (by omega) _

end

end JmpOptoAux
end Gtm
