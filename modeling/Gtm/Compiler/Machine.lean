import Gtm.Compiler.BoolExpr

/-!
# Execution of a chain

What the generated code of a chain does: the triples run in their order, a comparison sets the condition codes, and a jump tests
them or `$TEST`. Values, their comparisons and the effects of computing an operand are left open, so that an operand may read and
change whatever it likes. Next to it, the evaluation of a Boolean expression from left to right that stops as soon as the value is
known.
-/

namespace Gtm

variable {σ V : Type}

/-- What operands, comparisons and `$TEST` mean: `value t` computes the operand of triple `t`, and `cmp c` is what comparison `c`
leaves in the condition codes. -/
structure Sem (σ V : Type) where
  value : Nat → σ → V × σ
  truth : V → Bool
  ofBool : Bool → V
  cmp : Opcode → V → V → Int
  dollarTruth : σ → Bool

/-- The running code: the place in the chain, the state operands see, the values of triples, the Boolean temporaries of
`OC_BOOLINIT`, the condition codes, and the operands evaluated so far. -/
structure Mach (σ V : Type) where
  pc : Nat
  st : σ
  vals : Nat → Option V
  bools : Nat → Bool
  cc : Int
  evaluated : List Nat

/-- The place in the chain that a jump operand stands for. -/
def place (code : List Triple) (cell : Nat → Oprtype) (o : Oprtype) : Option Nat :=
  let direct : Oprtype → Option Nat
    | .tjmpRef t => code.findIdx? (fun x => x.id = t)
    | .tnxtRef t => (code.findIdx? (fun x => x.id = t)).map (· + 1)
    | _ => none
  match o with
  | .indrRef c => direct (cell c)
  | o => direct o

/-- The value of an operand that refers to a triple. -/
def Mach.opval (m : Mach σ V) : Oprtype → Option V
  | .tripRef t => m.vals t
  | _ => none

/-- Whether a jump is taken. -/
def Sem.taken (S : Sem σ V) (c : Opcode) (m : Mach σ V) : Bool :=
  match c with
  | .jmp => true
  | .jmptset => S.dollarTruth m.st
  | .jmptclr => !S.dollarTruth m.st
  | .jmpequ => m.cc = 0
  | .jmpneq => m.cc ≠ 0
  | .jmpgtr => 0 < m.cc
  | .jmpleq => m.cc ≤ 0
  | .jmplss => m.cc < 0
  | .jmpgeq => 0 ≤ m.cc
  | _ => false

/-- One triple. -/
def Sem.step (S : Sem σ V) (code : List Triple) (cell : Nat → Oprtype) (m : Mach σ V) : Option (Mach σ V) := do
  let x ← code[m.pc]?
  match x.opcode with
  | .noop => some { m with pc := m.pc + 1 }
  | .boolinit => some { m with pc := m.pc + 1, bools := Function.update m.bools x.id false }
  | .boolfini =>
    match x.operand0 with
    | .tripRef b => some { m with pc := m.pc + 1, bools := Function.update m.bools b true }
    | _ => none
  | .comval =>
    match x.operand0 with
    | .tripRef b => some { m with pc := m.pc + 1, vals := Function.update m.vals x.id (some (S.ofBool (m.bools b))) }
    | _ => none
  | .cobool =>
    let v ← m.opval x.operand0
    some { m with pc := m.pc + 1, cc := if S.truth v then 1 else 0 }
  | .equ | .pattern | .follow | .sortsAfter | .contain | .numcmp =>
    let v0 ← m.opval x.operand0
    let v1 ← m.opval x.operand1
    some { m with pc := m.pc + 1, cc := S.cmp x.opcode v0 v1 }
  | .jmp | .jmpequ | .jmpneq | .jmpgtr | .jmpleq | .jmplss | .jmpgeq =>
    if S.taken x.opcode m then (place code cell x.operand0).map fun p => { m with pc := p }
    else some { m with pc := m.pc + 1 }
  | .jmptset | .jmptclr =>
    let m := { m with evaluated := m.evaluated ++ [x.id] }
    if S.taken x.opcode m then (place code cell x.operand0).map fun p => { m with pc := p }
    else some { m with pc := m.pc + 1 }
  | c =>
    if c.exprleaf then
      let (v, st) := S.value x.id m.st
      some { m with pc := m.pc + 1, st := st, vals := Function.update m.vals x.id (some v), evaluated := m.evaluated ++ [x.id] }
    else none

/-- Any number of triples. -/
def Sem.Runs (S : Sem σ V) (code : List Triple) (cell : Nat → Oprtype) : Mach σ V → Mach σ V → Prop :=
  Relation.ReflTransGen (fun m m' => S.step code cell m = some m')

/-- Whether a relation holds, by what its comparison leaves in the condition codes. -/
def RelOp.holds : RelOp → Int → Bool
  | .equ, cc => cc ≠ 0
  | .pattern, cc => cc ≠ 0
  | .follow, cc => 0 < cc
  | .sortsAfter, cc => 0 < cc
  | .contain, cc => cc ≠ 0
  | .gt, cc => 0 < cc
  | .lt, cc => cc < 0

mutual

/-- The value of an operand, the state after computing it and the operands evaluated on the way. -/
def Sem.evalOpnd (S : Sem σ V) : Opnd → σ → V × σ × List Nat
  | .leaf t _ _, st => ((S.value t st).1, (S.value t st).2, [t])
  | .comval _ e, st =>
    let (b, st, l) := S.evalBool e st
    (S.ofBool b, st, l)

/-- The truth value of a Boolean expression by short-circuit evaluation from left to right. A plain `$TEST` is read by the jump
that stands for the expression. -/
def Sem.evalBool (S : Sem σ V) : BoolExpr → σ → Bool × σ × List Nat
  | .cobool t x, st =>
    match x with
    | .leaf _ .gettruth _ => (S.dollarTruth st, st, [t])
    | x =>
      let (v, st, l) := S.evalOpnd x st
      (S.truth v, st, l)
  | .com _ e, st =>
    let (b, st, l) := S.evalBool e st
    (!b, st, l)
  | .rel _ c negated a b, st =>
    let (va, st, la) := S.evalOpnd a st
    let (vb, st, lb) := S.evalOpnd b st
    (c.holds (S.cmp c.cmp va vb) != negated, st, la ++ lb)
  | .bool _ .and negated l r, st =>
    let (bl, st, ll) := S.evalBool l st
    if bl then
      let (br, st, lr) := S.evalBool r st
      (br != negated, st, ll ++ lr)
    else (negated, st, ll)
  | .bool _ .or negated l r, st =>
    let (bl, st, ll) := S.evalBool l st
    if bl then (!negated, st, ll)
    else
      let (br, st, lr) := S.evalBool r st
      (br != negated, st, ll ++ lr)

end

end Gtm
