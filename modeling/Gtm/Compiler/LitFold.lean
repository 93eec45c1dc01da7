import Gtm.Numeric.Compare

/-!
# Literals worked out by the compiler

The three folders of the compiler, `unary_tail` for a chain of unary operators over a literal, the arithmetic part of `ex_tail` for
an arithmetic operator with two literal operands and `bx_boollit` for a Boolean operator with two literal operands, beside the
run-time routines they stand for. An expression is the tree of triples the parser leaves; folding it yields the new tree and the
list of the operations on literals the folders met.
-/

namespace Gtm

/-- The opcodes of unary triples: `OC_COM`, `OC_COBOOL`, `OC_COMVAL`, `OC_FORCENUM` and `OC_NEG`. -/
inductive UnaryOp where
  | com
  | cobool
  | comval
  | forcenum
  | neg
deriving DecidableEq, Repr

/-- The opcodes of arithmetic triples. -/
inductive ArithOp where
  | add
  | sub
  | mul
  | div
  | idiv
  | mod
  | exp
deriving DecidableEq, Repr

/-- The Boolean operators before negation. -/
inductive BoolKind where
  | and
  | or
  | contain
  | equ
  | follow
  | gt
  | lt
  | pattern
  | sortsAfter
deriving DecidableEq, Repr

/-- A Boolean opcode: `OC_NAND` is `and` negated, and so on (`OCT_NEGATED`). -/
structure BoolOpcode where
  kind : BoolKind
  negated : Bool := false
deriving DecidableEq, Repr

/-- The operands of the operator are truth values. -/
def BoolKind.logical : BoolKind → Bool
  | .and | .or => true
  | _ => false

/-! ## Numbers of literals -/

/-- `PUT_LITERAL_TRUTH`. -/
def putLiteralTruth (tv : Bool) : Mval := if tv then literalOne else literalZero

/-- What `s2n` leaves when the number is too large: no numeric type bit, and both words of the mantissa. -/
def s2nOverflow (u : Mval) : Mval :=
  let (r, _) := s2nSigns u.str 0
  let (r, _) := skipZeros r 0
  let dot : Bool := r.head? = some ascDot
  let (r, lead) := skipZeros (if dot then r.tail else r) 0
  let mant := s2nMantissa r (-lead) dot
  { u with
    mvtype := { u.mvtype with nm := false, int := false, numApprox := false }
    m1 := mant.m1 * tenPwr mant.k
    m0 := mant.m0 }

/-- `s2n` with `compile_time` set: an overflow raises no error. -/
def s2nCompile (u : Mval) : Mval :=
  match s2n u with
  | .ok r => r.mval
  | .error _ => s2nOverflow u

/-- `MV_FORCE_NUMD` in the compiler. -/
def mvForceNumd (v : Mval) : Mval := if v.mvtype.nm then v else s2nCompile v

/-- `MV_FORCE_BOOL` at run time. -/
def mvForceBool (v : Mval) : Except RtErr Bool := (mvForceNum v).map fun u => u.m1 ≠ 0

/-! ## Comparisons -/

/-- `memvcmp`: bytes first, then lengths. -/
def memvcmp : List UInt8 → List UInt8 → Int
  | [], [] => 0
  | [], _ :: _ => -1
  | _ :: _, [] => 1
  | a :: s, b :: t => if a < b then -1 else if b < a then 1 else memvcmp s t

/-- `MV_IS_CANONICAL`. -/
def mvIsCanonical (v : Mval) : Bool := if v.mvtype.nm then !v.mvtype.numApprox else valIscan v

/-! ## The routines the code calls

The arithmetic routines work in part in floating point, `matchc` and the collation depend on the character set and on what the
process has set up, and `do_pattern` interprets a compiled pattern; they are the same routines at compile time and at run time.
-/

structure RtLib where
  /-- `op_add`, `op_sub`, `op_mul`, `op_div`, `op_idiv`, `flt_mod` and `op_exp` on two numbers. -/
  arith : ArithOp → Mval → Mval → Except RtErr Mval
  /-- `flt_mod` finds a quotient of whole part zero and returns the dividend as it is, `*q = *u_orig`. -/
  modKeeps : Mval → Mval → Bool
  /-- `matchc` for one piece, delimiter first: `*res` and `*numpcs`; nothing when a character is not valid. -/
  matchc : List UInt8 → List UInt8 → Option (Nat × Nat)
  /-- `local_collseq`, as the transformation `do_xform` applies, and `local_coll_nums_as_strings`. -/
  localCollseq : Option (List UInt8 → List UInt8) := none
  localCollNumsAsStrings : Bool := false
  /-- `do_pattern` or `do_patfixed`; nothing when the pattern is not found. -/
  doPattern : Mval → Mval → Option Bool
  /-- `xecute_literal_parse`. -/
  xecuteLiteralParse : Bool := false

/-- The position of the first occurrence of the delimiter, from `n` on. -/
def findPiece (del : List UInt8) : List UInt8 → Nat → Option Nat
  | [], _ => none
  | c :: src, n => if del.isPrefixOf (c :: src) then some n else findPiece del src (n + 1)

/-- `matchb`, which is `matchc` in M mode, for one piece. -/
def matchb (del src : List UInt8) : Nat × Nat :=
  if del = [] then (1, 0)
  else match findPiece del src 0 with
    | some n => (n + del.length + 1, 0)
    | none => (0, 1)

/-- A result of an arithmetic routine: a number in range, or a zero with an exponent (`0*1E30`). Its string, if there is one,
is the canonical one. -/
structure ArithResult (w : Mval) : Prop where
  nm : w.mvtype.nm = true
  exact : w.mvtype.numApprox = false
  valid : w.NumValid ∨ (w.mvtype.int = false ∧ w.m1 = 0 ∧ w.m0 = 0)
  str : w.mvtype.str = true → w.str = n2sStr w

/-- What the folders rely on: the arithmetic routines check the exponent of what they return, `flt_mod` may return the dividend,
and `matchc` sets `*res` to zero when pieces are left to be matched. -/
structure RtLib.Sound (lib : RtLib) : Prop where
  arith : ∀ c u v w, u.mvtype.nm = true → v.mvtype.nm = true → u.NumValid → v.NumValid → lib.arith c u v = .ok w →
    (c = .mod → lib.modKeeps u v = false) → ArithResult w
  modKeeps : ∀ u v, lib.modKeeps u v = true → lib.arith .mod u v = .ok u
  matchc : ∀ d s res n, lib.matchc d s = some (res, n) → n ≤ 1 ∧ (res = 0 ↔ n = 1)

/-- `sorts_after`. -/
def sortsAfter (lib : RtLib) (u v : Mval) : Except RtErr Int :=
  let strings : Int :=
    let s := (mvForceStr u).str
    let t := (mvForceStr v).str
    match lib.localCollseq with
    | some xform => memvcmp (xform s) (xform t)
    | none => memvcmp s t
  if lib.localCollNumsAsStrings then .ok strings
  else if mvIsCanonical u then
    if mvIsCanonical v then numcmp u v else .ok (if (mvForceStr v).str = [] then 1 else -1)
  else if mvIsCanonical v then .ok (if (mvForceStr u).str = [] then -1 else 1)
  else .ok strings

/-! ## Evaluation at run time

A literal in the object file has been forced to a number (`obj_file.c`), so it reaches the routines as `mvForceNumd` of the
compiler's literal.
-/

/-- `op_neg`. -/
def opNeg (v : Mval) : Except RtErr Mval := do
  let u ← mvForceNum v
  return if u.mvtype.int then { mvtype := { nm := true, int := true }, m1 := -u.m1 }
    else { mvtype := { nm := true }, sgn := !u.sgn, e := u.e, m1 := u.m1, m0 := u.m0 }

/-- `op_forcenum`. -/
def opForcenum (v : Mval) : Except RtErr Mval := do
  let u ← mvForceNum v
  return if u.mvtype.str && !u.mvtype.numApprox then u
    else if u.mvtype.int then { mvtype := { nm := true, int := true }, m1 := u.m1 }
    else { mvtype := { nm := true }, sgn := u.sgn, e := u.e, m1 := u.m1, m0 := u.m0 }

/-- One unary operator on a value; a truth value is the number 0 or 1. -/
def UnaryOp.run (o : UnaryOp) (v : Mval) : Except RtErr Mval :=
  match o with
  | .neg => opNeg v
  | .forcenum => opForcenum v
  | .cobool => (mvForceBool v).map putLiteralTruth
  | .com => (mvForceBool v).map fun b => putLiteralTruth (!b)
  | .comval => .ok v

/-- A chain of unary operators, the outermost first, over a value. -/
def runChain : List UnaryOp → Mval → Except RtErr Mval
  | [], v => .ok v
  | o :: cs, v => runChain cs v >>= o.run

/-- The relation of a Boolean operator on two values, at run time; the logical operators jump over their right operand. -/
def BoolKind.run (lib : RtLib) (k : BoolKind) (u v : Mval) : Except RtErr Bool :=
  match k with
  | .and => do if ← mvForceBool u then mvForceBool v else return false
  | .or => do if ← mvForceBool u then return true else mvForceBool v
  | .contain => match lib.matchc (mvForceStr v).str (mvForceStr u).str with
    | some (res, _) => .ok (res ≠ 0)
    | none => .error .badchar
  | .equ => .ok (isEqu u v)
  | .follow => .ok (0 < memvcmp (mvForceStr u).str (mvForceStr v).str)
  | .gt => (numcmp u v).map fun c => 0 < c
  | .lt => (numcmp u v).map fun c => c < 0
  | .pattern => match lib.doPattern u v with
    | some b => .ok b
    | none => .error .patnotfound
  | .sortsAfter => (Gtm.sortsAfter lib u v).map fun c => 0 < c

/-- An operation on literals: a chain of unary operators, outermost first, or a binary operator. -/
inductive LitOp where
  | chain (cs : List UnaryOp) (v : Mval)
  | arith (c : ArithOp) (v0 v1 : Mval)
  | bool (c : BoolOpcode) (v0 v1 : Mval)
deriving DecidableEq

/-- The operators a literal that replaces a chain stands for: a coercion to a truth value around them is put back. -/
def replaced : List UnaryOp → List UnaryOp
  | .cobool :: cs => cs
  | cs => cs

/-- What the operation evaluates to at run time. -/
def LitOp.run (lib : RtLib) : LitOp → Except RtErr Mval
  | .chain cs v => runChain (replaced cs) (mvForceNumd v)
  | .arith c v0 v1 => do
    let u ← mvForceNum (mvForceNumd v0)
    let v ← mvForceNum (mvForceNumd v1)
    lib.arith c u v
  | .bool c v0 v1 => (c.kind.run lib (mvForceNumd v0) (mvForceNumd v1)).map fun b => putLiteralTruth (b ^^ c.negated)

/-! ## Folding -/

/-- The counters of `unary_tail`. -/
structure Tail where
  com : Nat := 0
  num : Nat := 0
  neg : Bool := false
  pendingCoerce : Option UnaryOp := none
deriving DecidableEq, Repr

/-- One operator of the chain, on the way to the literal: behind a complement a negation no longer matters. -/
def Tail.count (t : Tail) (c1 : UnaryOp) : Tail :=
  match c1 with
  | .com => { t with com := t.com + 1 }
  | .forcenum => { t with num := t.num + 1 }
  | .neg => { t with num := t.num + 1, neg := if t.com ≠ 0 then t.neg else !t.neg }
  | .comval => { t with pendingCoerce := t.pendingCoerce.or (some .comval) }
  | .cobool => { t with pendingCoerce := t.pendingCoerce.or (some .cobool) }

/-- The counters when the literal is reached. -/
def tailOf (cs : List UnaryOp) : Tail := cs.foldl Tail.count {}

/-- The sign of a literal changed in place. -/
def negLiteral (v : Mval) : Mval :=
  if v.mvtype.int then (if v.m1 ≠ 0 then { v with m1 := -v.m1 } else { v with sgn := false })
  else if v.mvtype.nm then { v with sgn := !v.sgn }
  else v

/-- The literal `unary_tail` puts in place of the chain. -/
def tailLiteral (t : Tail) (v : Mval) : Except RtErr Mval :=
  let v := mvForceNumd v
  let v := if t.com ≠ 0 then putLiteralTruth (if t.com % 2 = 1 then (mvForceNumd v).m1 = 0 else (mvForceNumd v).m1 ≠ 0) else v
  if t.num = 0 then .ok v
  else if t.neg then .ok (n2s (negLiteral v))
  else
    let mv := s2nCompile v
    if mv.mvtype.nm then .ok (n2s mv) else .error .numoflow

/-- The arithmetic of `ex_tail` on two literals; nothing when it is left to run time. -/
def arithLiteral (lib : RtLib) (c : ArithOp) (v0 v1 : Mval) : Except RtErr (Option Mval) :=
  let v0 := mvForceNumd v0
  let v1 := mvForceNumd v1
  if !v1.mvtype.nm || !v0.mvtype.nm then .error .numoflow
  else
    let finish (w : Mval) : Option Mval := some (s2nCompile (n2s w))
    match c with
    | .div | .idiv | .mod => if v1.m1 = 0 then .ok none else (lib.arith c v0 v1).map finish
    | .exp => match lib.arith c v0 v1 with
      | .error .divzero => .ok none
      | .error e => .error e
      | .ok w => .ok (if w.sgn && w.mvtype.int && w.m0 = 0 then none else finish w)
    | .add | .sub | .mul => (lib.arith c v0 v1).map finish

/-- The value `bx_boollit` works out for two literals that are numbers; nothing when a pattern is left to run time. -/
def boolLiteral (lib : RtLib) (k : BoolKind) (v0 v1 : Mval) : Except RtErr (Option Bool) :=
  let tv0 : Bool := v0.m1 ≠ 0
  let tv1 : Bool := v1.m1 ≠ 0
  match k with
  | .and => .ok (some (tv0 && tv1))
  | .or => .ok (some (tv0 || tv1))
  | .contain => match lib.matchc (mvForceStr v1).str (mvForceStr v0).str with
    | some (_, numpcs) => .ok (some (numpcs ^^^ 1 ≠ 0))
    | none => .error .badchar
  | .equ => .ok (some (isEqu v0 v1))
  | .follow => .ok (some (0 < memvcmp (mvForceStr v0).str (mvForceStr v1).str))
  | .gt => (numcmp v0 v1).map fun c => some (0 < c)
  | .lt => (numcmp v0 v1).map fun c => some (0 > c)
  | .pattern => .ok (if lib.xecuteLiteralParse then none else lib.doPattern v0 v1)
  | .sortsAfter => (sortsAfter lib v0 v1).map fun c => some (0 < c)

/-- The literal that takes the operation's place, or nothing when the operation is left to run time. -/
def LitOp.fold (lib : RtLib) : LitOp → Except RtErr (Option Mval)
  | .chain cs v => (tailLiteral (tailOf cs) v).map some
  | .arith c v0 v1 => arithLiteral lib c v0 v1
  | .bool c v0 v1 =>
    let v0 := mvForceNumd v0
    let v1 := mvForceNumd v1
    if !v0.mvtype.nm || !v1.mvtype.nm then .error .numoflow
    else (boolLiteral lib c.kind v0 v1).map fun o => o.map fun tvr => putLiteralTruth (tvr ^^ c.negated)

/-! ## Expressions -/

/-- The triples of an expression: literals, operands that are worked out at run time, and operators. -/
inductive LitExpr where
  | lit (v : Mval)
  | leaf (n : Nat)
  | unary (o : UnaryOp) (e : LitExpr)
  | arith (c : ArithOp) (l r : LitExpr)
  | bool (c : BoolOpcode) (l r : LitExpr)
deriving DecidableEq

/-- An expression with the operations on literals met so far. -/
structure Folding (α : Type) where
  ops : List LitOp
  res : Except RtErr α

/-- The operations of both steps, unless the first one ends in an error. -/
def Folding.bind {α β : Type} (x : Folding α) (f : α → Folding β) : Folding β :=
  match x.res with
  | .ok a => { ops := x.ops ++ (f a).ops, res := (f a).res }
  | .error err => { ops := x.ops, res := .error err }

instance : Monad Folding where
  pure a := { ops := [], res := .ok a }
  bind := Folding.bind

/-- One operation on literals, with what to put in the operators' place. -/
def foldOp (lib : RtLib) (op : LitOp) (keep : LitExpr) (put : Mval → LitExpr) : Folding LitExpr where
  ops := [op]
  res := (op.fold lib).map fun o => match o with
    | some v => put v
    | none => keep

/-- The unary operators on top of an expression, outermost first, and what is below them. -/
def LitExpr.spine : LitExpr → List UnaryOp × LitExpr
  | .unary o e => (o :: e.spine.1, e.spine.2)
  | e => ([], e)

/-- `unary_tail`: a chain that ends in a literal is replaced. -/
def unaryTail (lib : RtLib) (e : LitExpr) : Folding LitExpr :=
  match e.spine with
  | ([], _) => pure e
  | (cs, .lit v) => foldOp lib (.chain cs v) e fun w =>
    if (tailOf cs).pendingCoerce = some .cobool then .unary .cobool (.lit w) else .lit w
  | _ => pure e

/-- The literal below the unary operators of an operand. -/
def LitExpr.literal? (e : LitExpr) : Option Mval :=
  match e.spine.2 with
  | .lit v => some v
  | _ => none

/-- The arithmetic operator of `ex_tail` over operands that have been folded. -/
def exArith (lib : RtLib) (c : ArithOp) (l r : LitExpr) : Folding LitExpr :=
  match l, r with
  | .lit v0, .lit v1 => foldOp lib (.arith c v0 v1) (.arith c l r) .lit
  | _, _ => pure (.arith c l r)

/-- The Boolean operator of `bx_boollit` over operands that have been folded. -/
def bxBoollit (lib : RtLib) (c : BoolOpcode) (l r : LitExpr) : Folding LitExpr :=
  match l.literal?, r.literal? with
  | some v0, some v1 => foldOp lib (.bool c v0 v1) (.bool c l r) fun w => .unary .cobool (.lit w)
  | _, _ => pure (.bool c l r)

/-- `ex_tail` and `bx_boollit` on what is below the unary operators of an operand: operands first, then the operator. -/
def LitExpr.foldBelow (lib : RtLib) : LitExpr → Folding LitExpr
  | .lit v => pure (.lit v)
  | .leaf n => pure (.leaf n)
  | .unary o e => do return .unary o (← e.foldBelow lib)
  | .arith c l r => do
    let l ← l.foldBelow lib >>= unaryTail lib
    let r ← r.foldBelow lib >>= unaryTail lib
    exArith lib c l r
  | .bool c l r => do
    let l ← l.foldBelow lib >>= unaryTail lib
    let r ← r.foldBelow lib >>= unaryTail lib
    bxBoollit lib c l r

/-- The expression with its literals worked out. -/
def LitExpr.fold (lib : RtLib) (e : LitExpr) : Folding LitExpr := e.foldBelow lib >>= unaryTail lib

/-- The trees the parser makes (`coerce`): a truth value is made from a value by `OC_COBOOL`, complemented by `OC_COM`, and made
a value by `OC_COMVAL`, which never stands on an `OC_COBOOL`. -/
inductive LitExpr.Typed : Bool → LitExpr → Prop
  | lit (v : Mval) : Typed false (.lit v)
  | leaf (n : Nat) : Typed false (.leaf n)
  | neg {e : LitExpr} : Typed false e → Typed false (.unary .neg e)
  | forcenum {e : LitExpr} : Typed false e → Typed false (.unary .forcenum e)
  | cobool {e : LitExpr} : Typed false e → Typed true (.unary .cobool e)
  | com {e : LitExpr} : Typed true e → Typed true (.unary .com e)
  | comval {e : LitExpr} : Typed true e → (∀ e', e ≠ .unary .cobool e') → Typed false (.unary .comval e)
  | arith (c : ArithOp) {l r : LitExpr} : Typed false l → Typed false r → Typed false (.arith c l r)
  | bool (c : BoolOpcode) {l r : LitExpr} : Typed c.kind.logical l → Typed c.kind.logical r → Typed true (.bool c l r)

/-- A literal as `advancewindow` leaves it: a string that `s2n` has been run on, or a number with its canonical string. -/
inductive Mval.Lexed : Mval → Prop
  | strlit (u : Mval) : u.mvtype = { str := true } → Mval.Lexed (s2nCompile u)
  | numlit (u : Mval) (r : S2nResult) : u.mvtype = { str := true } → s2n u = .ok r → Mval.Lexed (n2s r.mval)

/-- Every literal of the expression satisfies the predicate. -/
def LitExpr.All (P : Mval → Prop) : LitExpr → Prop
  | .lit v => P v
  | .leaf _ => True
  | .unary _ e => e.All P
  | .arith _ l r => l.All P ∧ r.All P
  | .bool _ l r => l.All P ∧ r.All P

end Gtm
