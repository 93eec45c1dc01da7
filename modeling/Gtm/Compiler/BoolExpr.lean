import Gtm.Compiler.Triple

/-!
# Jump ladders of Boolean expressions

The last stage of the compilation of a Boolean expression (`bx_tail.c`, `bx_relop.c`, the short-circuit part of `bx_boolop.c` and
the Boolean part of `ex_tail.c`). The expression is a tree of triples, each standing in the chain after its operands; the passes
turn it, in place, into a ladder of tests and conditional jumps. Literal operands have been folded before.
-/

namespace Gtm

/-- The relational operators. -/
inductive RelOp where
  | equ | pattern | follow | sortsAfter | contain | gt | lt
deriving DecidableEq, Repr

/-- The logical operators. -/
inductive BoolOp where
  | and | or
deriving DecidableEq, Repr

/-- The opcode of a relational operator, plain or negated (`OCT_NEGATED`). -/
def RelOp.opcode : RelOp → Bool → Opcode
  | .equ, negated => if negated then .nequ else .equ
  | .pattern, negated => if negated then .npattern else .pattern
  | .follow, negated => if negated then .nfollow else .follow
  | .sortsAfter, negated => if negated then .nsortsAfter else .sortsAfter
  | .contain, negated => if negated then .ncontain else .contain
  | .gt, negated => if negated then .ngt else .gt
  | .lt, negated => if negated then .nlt else .lt

/-- The opcode of a logical operator, plain or negated. -/
def BoolOp.opcode : BoolOp → Bool → Opcode
  | .and, negated => if negated then .nand else .and
  | .or, negated => if negated then .nor else .or

mutual

/-- An operand of a relational operator or of a coercion to Boolean: a leaf (`OCT_EXPRLEAF`) or the value of a Boolean
expression. -/
inductive Opnd where
  | leaf (t : Nat) (c : Opcode) (h : c.exprleaf = true)
  | comval (t : Nat) (e : BoolExpr)

/-- A Boolean expression, every node with the address of its triple. -/
inductive BoolExpr where
  | cobool (t : Nat) (x : Opnd)
  | com (t : Nat) (e : BoolExpr)
  | rel (t : Nat) (c : RelOp) (negated : Bool) (a b : Opnd)
  | bool (t : Nat) (c : BoolOp) (negated : Bool) (l r : BoolExpr)

end

/-- The triple of an operand. -/
def Opnd.tref : Opnd → Nat
  | .leaf t _ _ => t
  | .comval t _ => t

/-- The triple of a Boolean expression. -/
def BoolExpr.tref : BoolExpr → Nat
  | .cobool t _ => t
  | .com t _ => t
  | .rel t _ _ _ _ => t
  | .bool t _ _ _ _ => t

/-- The first triple in the chain that is itself Boolean, reached through the left operands. -/
def BoolExpr.leftmost : BoolExpr → Nat
  | .cobool t _ => t
  | .com _ e => e.leftmost
  | .rel t _ _ _ _ => t
  | .bool _ _ _ l _ => l.leftmost

mutual

/-- The triples the parser leaves in the chain for an operand. -/
def Opnd.layout : Opnd → List Triple
  | .leaf t c _ => [{ id := t, opcode := c }]
  | .comval t e => e.layout ++ [{ id := t, opcode := .comval, operand0 := .tripRef e.tref }]

/-- The triples the parser leaves in the chain for a Boolean expression. -/
def BoolExpr.layout : BoolExpr → List Triple
  | .cobool t x => x.layout ++ [{ id := t, opcode := .cobool, operand0 := .tripRef x.tref }]
  | .com t e => e.layout ++ [{ id := t, opcode := .com, operand0 := .tripRef e.tref }]
  | .rel t c negated a b => a.layout ++ b.layout ++
      [{ id := t, opcode := c.opcode negated, operand0 := .tripRef a.tref, operand1 := .tripRef b.tref }]
  | .bool t c negated l r => l.layout ++ r.layout ++
      [{ id := t, opcode := c.opcode negated, operand0 := .tripRef l.tref, operand1 := .tripRef r.tref }]

end

/-- The opcode that compares, as `bx_tail` hands it to `bx_relop`. -/
def RelOp.cmp : RelOp → Opcode
  | .equ => .equ
  | .pattern => .pattern
  | .follow => .follow
  | .sortsAfter => .sortsAfter
  | .contain => .contain
  | .gt => .numcmp
  | .lt => .numcmp

/-- The jump that tests the comparison, as `bx_tail` hands it to `bx_relop`. -/
def RelOp.tst : RelOp → Bool → Opcode
  | .equ, sense => if sense then .jmpneq else .jmpequ
  | .pattern, sense => if sense then .jmpneq else .jmpequ
  | .follow, sense => if sense then .jmpgtr else .jmpleq
  | .sortsAfter, sense => if sense then .jmpgtr else .jmpleq
  | .contain, sense => if sense then .jmpneq else .jmpequ
  | .gt, sense => if sense then .jmpgtr else .jmpleq
  | .lt, sense => if sense then .jmplss else .jmpgeq

/-- The short-circuit case of `bx_boolop`, with `bx_tail` of its two operands. -/
def bxBoolop (tail0 tail1 : Bool → Nat → Comp → Comp) (t : Nat) (jmpTypeOne jmpToNext sense : Bool) (addr : Nat)
    (s : Comp) : Comp :=
  let p := if jmpToNext then s.cells.length else addr
  let s := if jmpToNext then s.newCell (.tjmpRef t) else s
  let s := tail0 jmpTypeOne p s
  let s := tail1 sense addr s
  s.noop t

mutual

/-- `ex_tail` of an operand. A Boolean value is bracketed by `OC_BOOLINIT`, which clears it, and `OC_BOOLFINI`, which sets it and
is jumped around when the expression is false. -/
def exTail : Opnd → Comp → Comp
  | .leaf _ _ _, s => s
  | .comval t e, s =>
    let bitrip := s.nextId
    let s := { s with chain := dqrins e.leftmost { id := bitrip, opcode := .boolinit } s.chain, nextId := bitrip + 1 }
    let bftrip := s.nextId
    let bfini : Triple := { id := bftrip, opcode := .boolfini, operand0 := .tripRef bitrip }
    let s := { s with chain := dqins e.tref bfini s.chain, nextId := bftrip + 1 }
    let s := s.update t (fun x => { x with operand0 := .tripRef bitrip })
    let i := s.cells.length
    let s := bxTail e false i (s.newCell .noRef)
    { s with cells := s.cells.set i (.tnxtRef bftrip) }

/-- `bx_tail`, with `bx_relop`: the Boolean expression becomes a ladder that jumps to `addr` when its truth value is `sense`. -/
def bxTail : BoolExpr → Bool → Nat → Comp → Comp
  | .cobool t x, sense, addr, s =>
    let s := exTail x s
    match x with
    | .leaf g .gettruth _ =>
      (s.noop g).update t (fun y => { y with opcode := if sense then .jmptset else .jmptclr, operand0 := .indrRef addr })
    | _ => s.insJump t (if sense then .jmpneq else .jmpequ) addr
  | .com t e, sense, addr, s => (bxTail e (!sense) addr s).noop t
  | .rel t c negated a b, sense, addr, s =>
    let sense := if negated then !sense else sense
    let s := s.insJump t (c.tst sense) addr
    let s := s.update t (fun y => { y with opcode := c.cmp })
    exTail b (exTail a s)
  | .bool t .and negated l r, sense, addr, s =>
    let sense := if negated then !sense else sense
    bxBoolop (bxTail l) (bxTail r) t false sense sense addr s
  | .bool t .or negated l r, sense, addr, s =>
    let sense := if negated then !sense else sense
    bxBoolop (bxTail l) (bxTail r) t true (!sense) sense addr s

end

end Gtm
