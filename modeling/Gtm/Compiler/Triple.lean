import Mathlib

/-!
# Triples

The intermediate code of the compiler (`compiler.h`, `opcode_def.h`): triples in the order of their execution, whose operands
refer to other triples, to a place to jump to, or to a cell that holds such a place and may be filled later. Triples are told
apart by their address, here a number.
-/

namespace Gtm

/-- The opcodes that the modelled passes name; every other one is `other`. -/
inductive Opcode where
  | noop | parameter | var | lit | ilit | cdlit | tripsize | cdidx
  | com | cobool | comval
  | equ | nequ | pattern | npattern | follow | nfollow | sortsAfter | nsortsAfter | contain | ncontain | gt | ngt | lt | nlt
  | and | nand | or | nor
  | numcmp
  | jmp | jmptset | jmptclr | jmpequ | jmpneq | jmpgtr | jmpleq | jmplss | jmpgeq
  | call | callsp | forlcldo
  | gvsavtarg | gvrectarg
  | gettruth | boolinit | boolfini
  | other (code : Nat)
deriving DecidableEq, Repr

/-- The opcodes that generate no code (`OCT_CGSKIP`). -/
def Opcode.cgskip : Opcode → Bool
  | .noop | .parameter | .var | .lit | .ilit | .cdlit | .tripsize | .cdidx => true
  | _ => false

/-- The opcodes that transfer control (`OCT_JUMP`). -/
def Opcode.isJump : Opcode → Bool
  | .jmp | .jmptset | .jmptclr | .jmpequ | .jmpneq | .jmpgtr | .jmpleq | .jmplss | .jmpgeq => true
  | .call | .callsp | .forlcldo => true
  | _ => false

/-- The opcodes of an operand that needs no further work (`OCT_EXPRLEAF`), those the passes put in themselves left out. -/
def Opcode.exprleaf : Opcode → Bool
  | .var | .lit | .ilit | .cdlit | .tripsize | .cdidx | .gettruth | .other _ => true
  | _ => false

/-- An operand (`oprtype`): nothing, the value of a triple, a triple to jump to, the triple after one, or a cell. -/
inductive Oprtype where
  | noRef
  | tripRef (t : Nat)
  | tjmpRef (t : Nat)
  | tnxtRef (t : Nat)
  | indrRef (cell : Nat)
deriving DecidableEq, Repr

/-- A triple of the chain. -/
structure Triple where
  id : Nat
  opcode : Opcode
  operand0 : Oprtype := .noRef
  operand1 : Oprtype := .noRef
deriving DecidableEq, Repr

/-- What the passes over a chain work on: the triples in execution order, the cells that hold jump operands, and the next address
`maketriple` gives. -/
structure Comp where
  chain : List Triple
  cells : List Oprtype
  nextId : Nat

/-- `dqins`: a triple put right after triple `t`. -/
def dqins (t : Nat) (ref : Triple) : List Triple → List Triple
  | [] => []
  | x :: xs => if x.id = t then x :: ref :: xs else x :: dqins t ref xs

/-- `dqrins`: a triple put right before triple `t`. -/
def dqrins (t : Nat) (ref : Triple) : List Triple → List Triple
  | [] => []
  | x :: xs => if x.id = t then ref :: x :: xs else x :: dqrins t ref xs

/-- A change of the fields of triple `t`, in place. -/
def setTriple (t : Nat) (f : Triple → Triple) : List Triple → List Triple
  | [] => []
  | x :: xs => if x.id = t then f x :: xs else x :: setTriple t f xs

namespace Comp

/-- `maketriple` of a jump on `addr`, put right after triple `t`. -/
def insJump (s : Comp) (t : Nat) (c : Opcode) (addr : Nat) : Comp :=
  { s with chain := dqins t { id := s.nextId, opcode := c, operand0 := .indrRef addr } s.chain, nextId := s.nextId + 1 }

/-- A change of the fields of triple `t`. -/
def update (s : Comp) (t : Nat) (f : Triple → Triple) : Comp :=
  { s with chain := setTriple t f s.chain }

/-- A triple overlaid with `OC_NOOP`. It stays in the chain, as it can be the target of a jump. -/
def noop (s : Comp) (t : Nat) : Comp :=
  s.update t (fun x => { x with opcode := .noop, operand0 := .noRef, operand1 := .noRef })

/-- `mcalloc` of a cell, with what is put in it. -/
def newCell (s : Comp) (o : Oprtype) : Comp :=
  { s with cells := s.cells ++ [o] }

end Comp

end Gtm
