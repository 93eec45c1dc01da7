import Gtm.Lemmas.Ladder
import Gtm.Lemmas.JmpOpto

/-!
# The jump ladder of a Boolean expression

The code that `bx_tail` leaves for a Boolean expression goes to the target when the truth value of the expression is the sense it
was called with, goes on right after the code otherwise, and evaluates the operands that short-circuit evaluation from left to
right evaluates, in that order. Operands may have any effects, and may themselves be the values of Boolean expressions.
-/

namespace Gtm

open LadderAux

variable {σ V : Type}

/-- The ladder of a Boolean expression. The cells `bx_tail` made are taken as it filled them; the cell of `addr`, and the others
that were there before, may hold anything. -/
theorem bxTail_shortCircuit (S : Sem σ V) (e : BoolExpr) (sense : Bool) (addr : Nat) (s : Comp) (pre post : List Triple)
    (hw : s.WF) (hchain : s.chain = pre ++ e.layout ++ post) (cell : Nat → Oprtype)
    (hcell : ∀ i o, s.cells.length ≤ i → (bxTail e sense addr s).cells[i]? = some o → cell i = o) (target : Nat)
    (htarget : place (bxTail e sense addr s).chain cell (.indrRef addr) = some target) (m : Mach σ V) (hm : m.pc = pre.length) :
    ∃ code m', (bxTail e sense addr s).chain = pre ++ code ++ post ∧ S.Runs (bxTail e sense addr s).chain cell m m' ∧
      m'.pc = (if (S.evalBool e m.st).1 = sense then target else pre.length + code.length) ∧
      m'.st = (S.evalBool e m.st).2.1 ∧ m'.evaluated = m.evaluated ++ (S.evalBool e m.st).2.2 := by
  obtain ⟨code, hcode, -, -, hlad⟩ := bxTail_spec S e none sense addr s pre post hw (by rw [initTrip, layoutWith_nil, hchain])
  have hn := nodup_of_chain (bxTail_wf e sense addr s hw) hcode
  rw [hcode] at htarget
  obtain ⟨m', hr, hpc, hst, hev, -, -⟩ := hlad cell hcell pre post hn target htarget m hm
  exact ⟨code, m', hcode, by rw [hcode]; exact hr, hpc, hst, hev⟩

/-- `x&'(a<b)` compiled to jump when true, for `x` true, `a` one and `b` one: all three operands are evaluated and the jump is
taken. -/
theorem bxTail_shortCircuit_and_not_less :
    let S : Sem Unit Int := { value := fun _ _ => (1, ()), truth := fun v => v ≠ 0, ofBool := fun b => if b then 1 else 0,
                              cmp := fun _ a b => a - b, dollarTruth := fun _ => false }
    let e : BoolExpr := .bool 6 .and false (.cobool 1 (.leaf 0 .var rfl))
      (.com 5 (.rel 4 .lt false (.leaf 2 .var rfl) (.leaf 3 .var rfl)))
    let s : Comp := { chain := e.layout ++ [{ id := 7, opcode := .other 0 }, { id := 8, opcode := .other 1 }]
                      cells := [.tjmpRef 8], nextId := 9 }
    ∃ m', S.Runs (bxTail e true 0 s).chain (fun i => if i = 0 then .tjmpRef 8 else .tjmpRef 6)
        { pc := 0, st := (), vals := fun _ => none, bools := fun _ => false, cc := 0, evaluated := [] } m' ∧
      m'.pc = 10 ∧ m'.evaluated = [0, 2, 3] := by
  intro S e s
  have hcell : ∀ i o, s.cells.length ≤ i → (bxTail e true 0 s).cells[i]? = some o →
      (if i = 0 then .tjmpRef 8 else .tjmpRef 6) = o := by
    intro i o hi ho
    have hc : (bxTail e true 0 s).cells = [.tjmpRef 8, .tjmpRef 6] := by decide
    rw [hc] at ho
    match i, hi, ho with
    | 1, _, ho => simpa using ho
    | i + 2, _, ho => simp at ho
  obtain ⟨code, m', -, hr, hpc, -, hev⟩ := bxTail_shortCircuit S e true 0 s [] [{ id := 7, opcode := .other 0 },
    { id := 8, opcode := .other 1 }] ⟨by decide, by decide⟩ rfl (fun i => if i = 0 then .tjmpRef 8 else .tjmpRef 6) hcell 10
    (by decide) { pc := 0, st := (), vals := fun _ => none, bools := fun _ => false, cc := 0, evaluated := [] } rfl
  exact ⟨m', hr, hpc, hev⟩

/-- The code `ex_tail` leaves for an operand, also one that is the value of a Boolean expression, goes on right after itself, with the
value of the operand in its triple. -/
theorem exTail_value (S : Sem σ V) (x : Opnd) (s : Comp) (pre post : List Triple) (hw : s.WF) (hchain : s.chain = pre ++ x.layout ++ post)
    (cell : Nat → Oprtype) (hcell : ∀ i o, s.cells.length ≤ i → (exTail x s).cells[i]? = some o → cell i = o) (m : Mach σ V)
    (hm : m.pc = pre.length) :
    ∃ code m', (exTail x s).chain = pre ++ code ++ post ∧ S.Runs (exTail x s).chain cell m m' ∧ m'.pc = pre.length + code.length ∧
      m'.vals x.tref = some (S.evalOpnd x m.st).1 ∧ m'.st = (S.evalOpnd x m.st).2.1 ∧
      m'.evaluated = m.evaluated ++ (S.evalOpnd x m.st).2.2 := by
  obtain ⟨code, hcode, -, -, hcomp⟩ := exTail_spec S x s pre post hw hchain
  have hn := nodup_of_chain (exTail_wf x s hw) hcode
  obtain ⟨m', hr, hpc, hval, hst, hev, -⟩ := hcomp cell hcell pre post hn m hm
  exact ⟨code, m', hcode, by rw [hcode]; exact hr, hpc, hval, hst, hev⟩

/-- The value of `x&y` for `x` false is zero, and `y` is not evaluated. -/
theorem exTail_value_false_and :
    let S : Sem Unit Int := { value := fun _ _ => (0, ()), truth := fun v => v ≠ 0, ofBool := fun b => if b then 1 else 0,
                              cmp := fun _ a b => a - b, dollarTruth := fun _ => false }
    let x : Opnd := .comval 5 (.bool 4 .and false (.cobool 1 (.leaf 0 .var rfl)) (.cobool 3 (.leaf 2 .var rfl)))
    let s : Comp := { chain := x.layout, cells := [], nextId := 6 }
    ∃ m', S.Runs (exTail x s).chain (fun i => (exTail x s).cells.getD i .noRef)
        { pc := 0, st := (), vals := fun _ => none, bools := fun _ => true, cc := 0, evaluated := [] } m' ∧
      m'.pc = (exTail x s).chain.length ∧ m'.vals 5 = some 0 ∧ m'.evaluated = [0] := by
  intro S x s
  obtain ⟨code, m', hcode, hr, hpc, hval, -, hev⟩ := exTail_value S x s [] [] ⟨by decide, by decide⟩ rfl
    (fun i => (exTail x s).cells.getD i .noRef) (fun i o _ ho => by rw [List.getD_eq_getElem?_getD, ho, Option.getD_some])
    { pc := 0, st := (), vals := fun _ => none, bools := fun _ => true, cc := 0, evaluated := [] } rfl
  exact ⟨m', hr, by rw [hpc, hcode]; simp, hval, hev⟩

end Gtm

/-!
## Removal of jumps and restores

`jmp_opto` leaves a chain that does the operations the original one does, in the same order and each with the same global target,
whatever the operations do and however the conditional jumps go. This holds of a chain in which no jump goes to the triples without
code before a restore that the pass takes out: the pass looks at the jumps to the restore itself only.
-/

namespace Gtm

open JmpOptoAux

variable {σ G : Type}

/-- The chain after the pass gets to what can be observed exactly when the chain before it does. -/
theorem jmpOpto_runs (S : ChainSem σ G) (ch : List JmpTriple) (hfin : FinishedChain ch) (hS : S.Enters ch)
    (hg : RestoresUnentered ch) (hf : ForCallsKept ch) :
    (∀ x : ChainConf σ G, observable (jmpOpto ch) x = observable ch x) ∧
      ∀ m x : ChainConf σ G, EntryPlace ch m.pc → observable ch x = true → (S.Runs ch m x ↔ S.Runs (jmpOpto ch) m x) := by
  have h := (progress_foldl hfin hg hf hS ch.length (Nat.le_refl _)).reduced
  exact ⟨h.observable_eq, h.runs⟩

/-- A save right before its restore, with a triple without code between them, and a jump to the triple after it. -/
theorem jmpOpto_runs_save_restore :
    let ch : List JmpTriple := [{ opcode := .gvsavtarg }, { opcode := .lit }, { opcode := .gvrectarg, operand0 := .tripRef 0 },
      { opcode := .jmp, operand0 := .tjmpRef 4 }, { opcode := .other 0, jmplist := [3] }]
    let S : ChainSem Unit Nat := { taken := fun _ _ => false, exec := fun _ _ targ saved => ((), targ, saved, .fall) }
    jmpOpto ch = [{ opcode := .gvsavtarg }, { opcode := .lit }, { opcode := .noop }, { opcode := .noop },
      { opcode := .other 0, jmplist := [3] }] ∧
    S.Runs (jmpOpto ch) { pc := 0, st := (), targ := 7, saved := fun _ => 0, seen := [] }
      { pc := 4, st := (), targ := 7, saved := Function.update (fun _ => 0) 0 7, seen := [] } := by
  intro ch S
  have hfin : FinishedChain ch := by
    refine ⟨?_, ?_, ?_⟩
    · intro p t ht hj
      match p, ht with
      | 0, ht | 1, ht | 2, ht | 4, ht => cases ht; cases hj
      | 3, ht => cases ht; exact ⟨4, rfl, by decide⟩
    · intro q u hu p
      have hjumps : (∃ t : JmpTriple, ch[p]? = some t ∧ t.opcode.isJump = true ∧ t.operand0 = .tjmpRef q) ↔ p = 3 ∧ q = 4 := by
        constructor
        · rintro ⟨t, ht, hj, ho⟩
          match p, ht with
          | 0, ht | 1, ht | 2, ht | 4, ht => cases ht; cases hj
          | 3, ht => cases ht; cases ho; exact ⟨rfl, rfl⟩
        · rintro ⟨rfl, rfl⟩
          exact ⟨_, rfl, rfl, rfl⟩
      rw [hjumps]
      match q, hu with
      | 0, hu | 1, hu | 2, hu | 3, hu => cases hu; simp
      | 4, hu => cases hu; simp
    · intro r u hu hop
      match r, hu with
      | 0, hu | 1, hu | 3, hu | 4, hu => cases hu; cases hop
      | 2, hu => cases hu; exact ⟨0, _, rfl, by decide, rfl, rfl⟩
  have hg : RestoresUnentered ch := by
    intro c t save r u ht hs hlt hu hsup hskip k v hk1 hk2 hv
    have hr2 : r ≤ 2 := by
      match r, hu with
      | 0, hu | 1, hu | 2, hu => omega
      | 3, hu | 4, hu => cases hu; cases hsup
    have hk : k = 1 := by omega
    subst hk
    cases hv
    rfl
  have hf : ForCallsKept ch := by
    intro i t terminal ht hop
    match i, ht with
    | 0, ht | 1, ht | 2, ht | 3, ht | 4, ht => cases ht; cases hop
  refine ⟨by decide, ?_⟩
  refine ((jmpOpto_runs S ch hfin (fun _ _ _ _ _ h => by cases h) hg hf).2 _ _ (Or.inl rfl) rfl).mp ?_
  refine .tail (.tail (.tail (.tail .refl rfl) rfl) rfl) ?_
  rfl

/-- Of two restores with a triple between them that a jump goes to, the second is taken out, and the operation after it sees the
global target that the jump came with. -/
theorem jmpOpto_loses_restore :
    ¬ ∀ (ch : List JmpTriple) (S : ChainSem Unit Nat) (m x : ChainConf Unit Nat), FinishedChain ch → S.Enters ch →
      EntryPlace ch m.pc → observable ch x = true → (S.Runs ch m x ↔ S.Runs (jmpOpto ch) m x) := by
  intro hall
  let ch : List JmpTriple := [{ opcode := .gvsavtarg }, { opcode := .other 0 }, { opcode := .jmpequ, operand0 := .tjmpRef 4 },
    { opcode := .gvrectarg, operand0 := .tripRef 0 }, { opcode := .noop, jmplist := [2] },
    { opcode := .gvrectarg, operand0 := .tripRef 0 }, { opcode := .other 1 }]
  let S : ChainSem Unit Nat := { taken := fun _ _ => true, exec := fun _ _ _ saved => ((), 1, saved, .fall) }
  let m : ChainConf Unit Nat := { pc := 0, st := (), targ := 0, saved := fun _ => 0, seen := [] }
  let x : ChainConf Unit Nat := { pc := 6, st := (), targ := 0, saved := Function.update (fun _ => 0) 0 0, seen := [(1, 0)] }
  have hfin : FinishedChain ch := by
    refine ⟨?_, ?_, ?_⟩
    · intro p t ht hj
      match p, ht with
      | 0, ht | 1, ht | 3, ht | 4, ht | 5, ht | 6, ht => cases ht; cases hj
      | 2, ht => cases ht; exact ⟨4, rfl, by decide⟩
    · intro q u hu p
      have hjumps : (∃ t : JmpTriple, ch[p]? = some t ∧ t.opcode.isJump = true ∧ t.operand0 = .tjmpRef q) ↔ p = 2 ∧ q = 4 := by
        constructor
        · rintro ⟨t, ht, hj, ho⟩
          match p, ht with
          | 0, ht | 1, ht | 3, ht | 4, ht | 5, ht | 6, ht => cases ht; cases hj
          | 2, ht => cases ht; cases ho; exact ⟨rfl, rfl⟩
        · rintro ⟨rfl, rfl⟩
          exact ⟨_, rfl, rfl, rfl⟩
      rw [hjumps]
      match q, hu with
      | 0, hu | 1, hu | 2, hu | 3, hu | 5, hu | 6, hu => cases hu; simp
      | 4, hu => cases hu; simp
    · intro r u hu hop
      match r, hu with
      | 0, hu | 1, hu | 2, hu | 4, hu | 6, hu => cases hu; cases hop
      | 3, hu => cases hu; exact ⟨0, _, rfl, by decide, rfl, rfl⟩
      | 5, hu => cases hu; exact ⟨0, _, rfl, by decide, rfl, rfl⟩
  have hrun : S.Runs ch m x := by
    refine .tail (.tail (.tail (.tail (.tail .refl rfl) rfl) rfl) rfl) ?_
    rfl
  have hrun' := (hall ch S m x hfin (fun _ _ _ _ _ h => by cases h) (Or.inl rfl) rfl).mp hrun
  have hopto : jmpOpto ch = [{ opcode := .gvsavtarg }, { opcode := .other 0 }, { opcode := .jmpequ, operand0 := .tjmpRef 4 },
      { opcode := .gvrectarg, operand0 := .tripRef 0 }, { opcode := .noop, jmplist := [2] }, { opcode := .noop },
      { opcode := .other 1 }] := by decide
  rw [hopto] at hrun'
  -- after the first operation the global target stays what that one made it
  have hinv : x.pc = 0 ∨ x.pc = 1 ∨ (x.pc = 2 ∨ 4 ≤ x.pc) ∧ x.targ = 1 := by
    refine Simulation.invariant (I := fun y => y.pc = 0 ∨ y.pc = 1 ∨ (y.pc = 2 ∨ 4 ≤ y.pc) ∧ y.targ = 1) ?_ (Or.inl rfl) hrun'
    intro a b ha hstep
    obtain ⟨pc, st, targ, saved, seen⟩ := a
    rcases ha with rfl | rfl | ⟨rfl | h4, rfl⟩
    · cases hstep
      exact Or.inr (Or.inl rfl)
    · cases hstep
      exact Or.inr (Or.inr ⟨Or.inl rfl, rfl⟩)
    · cases hstep
      exact Or.inr (Or.inr ⟨Or.inr (Nat.le_refl 4), rfl⟩)
    · match pc, h4, hstep with
      | 4, _, hstep => cases hstep; exact Or.inr (Or.inr ⟨Or.inr (show 4 ≤ 5 by decide), rfl⟩)
      | 5, _, hstep => cases hstep; exact Or.inr (Or.inr ⟨Or.inr (show 4 ≤ 6 by decide), rfl⟩)
      | 6, _, hstep => cases hstep; exact Or.inr (Or.inr ⟨Or.inr (show 4 ≤ 7 by decide), rfl⟩)
  rcases hinv with h | h | ⟨-, h⟩ <;> cases h

end Gtm
