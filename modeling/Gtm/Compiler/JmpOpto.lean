import Gtm.Compiler.Triple

/-!
# Removal of jumps and restores

The pass `jmp_opto` over the finished chain of a routine (`jmp_opto.c`), and what the code of such a chain does. The pass adds,
moves and deletes no triple: a triple it takes out is overlaid with `OC_NOOP`. So a triple is known here by its place in the chain,
and the anchor `t_orig` of the chain, whose opcode is `OC_NOOP`, is the place after the last triple.
-/

namespace Gtm

/-- A triple of a finished chain: jumps have their places, and `jmplist` has the jumps that go here. -/
structure JmpTriple where
  opcode : Opcode
  operand0 : Oprtype := .noRef
  operand1 : Oprtype := .noRef
  jmplist : List Nat := []
deriving DecidableEq, Repr

/-- The jumps `jmp_opto` looks at: every `OCT_JUMP` opcode but `OC_CALL` and `OC_CALLSP`. -/
def Opcode.optoJump (c : Opcode) : Bool := c.isJump && c ≠ .call && c ≠ .callsp

/-- The opcodes that call a subroutine of the routine. -/
def Opcode.isCall : Opcode → Bool
  | .call | .callsp | .forlcldo => true
  | _ => false

/-! ## The pass -/

/-- The first triple from place `p` on that generates code, past the anchor if need be. -/
def skipFrom (ch : List JmpTriple) : Nat → Nat → Nat
  | 0, p => p
  | fuel + 1, p =>
    match ch[p]? with
    | some t => if t.opcode.cgskip then skipFrom ch fuel (p + 1) else p
    | none => skipFrom ch fuel 0

/-- An `OC_GVRECTARG` overlaid with `OC_NOOP`. -/
def noopRestore (ch : List JmpTriple) (r : Nat) : List JmpTriple :=
  ch.modify r (fun t => { t with opcode := .noop, operand0 := .noRef, operand1 := .noRef })

/-- A jump overlaid with `OC_NOOP`. -/
def noopJump (ch : List JmpTriple) (j : Nat) : List JmpTriple :=
  ch.modify j (fun t => { t with opcode := .noop, operand0 := .noRef })

/-- The save that a triple at place `cur` makes or restores, as the operand of a restore of it. -/
def JmpTriple.saveRef (t : JmpTriple) (cur : Nat) : Option Oprtype :=
  if t.opcode = .gvsavtarg then some (.tripRef cur)
  else if t.opcode = .gvrectarg then some t.operand0
  else none

/-- A restore of `save` that no jump goes to. -/
def JmpTriple.superfluous (t : JmpTriple) (save : Oprtype) : Bool :=
  t.opcode = .gvrectarg && t.operand0 = save && t.jmplist = []

/-- The walk back from a jump: every jump that gets to `terminal` anyway is taken out. The triples that are looked at are those
before place `k`. -/
def dropJumps (terminal : Nat) : Nat → List JmpTriple → List JmpTriple
  | 0, ch => ch
  | k + 1, ch =>
    match ch[k]? with
    | some t =>
      match t.opcode.optoJump, t.operand0 with
      | true, .tjmpRef target =>
        if skipFrom ch (ch.length + 1) target = terminal then dropJumps terminal k (noopJump ch k) else ch
      | _, _ => ch
    | none => ch

/-- One round of the loop of `jmp_opto`. A triple that made a restore superfluous is looked at again. -/
def optoAt (cur : Nat) : Nat → List JmpTriple → List JmpTriple
  | 0, ch => ch
  | fuel + 1, ch =>
    match ch[cur]? with
    | some t =>
      match t.saveRef cur with
      | some save =>
        let next := skipFrom ch (ch.length + 1) (cur + 1)
        match ch[next]? with
        | some u => if u.superfluous save then optoAt cur fuel (noopRestore ch next) else ch
        | none => ch
      | none => if t.opcode.optoJump then dropJumps (cur + 1) (cur + 1) ch else ch
    | none => ch

/-- `jmp_opto`. A triple is looked at once more than there are restores at most. -/
def jmpOpto (ch : List JmpTriple) : List JmpTriple :=
  (List.range ch.length).foldl (fun c cur => optoAt cur (c.length + 1) c) ch

/-! ## What a chain does -/

/-- What the code of one triple does next. -/
inductive Next where
  | fall
  | goto (p : Nat)
  | stop
deriving DecidableEq, Repr

/-- What operations and the tests of conditional jumps do. An operation sees and changes the state, the global target and the saved
targets (those of another call level after a call or a return), and says where the run goes on. -/
structure ChainSem (σ G : Type) where
  taken : Nat → σ → Bool
  exec : Nat → σ → G → (Nat → G) → σ × G × (Nat → G) × Next

/-- A running chain: the place, the state, the global target, the saved targets, and the operations done so far with the global
target each of them saw. -/
structure ChainConf (σ G : Type) where
  pc : Nat
  st : σ
  targ : G
  saved : Nat → G
  seen : List (Nat × G)

variable {σ G : Type}

/-- An operation: everything that generates code but jumps, saves and restores. Calls are operations. -/
def JmpTriple.isOperation (t : JmpTriple) : Bool :=
  !t.opcode.cgskip && t.opcode ≠ .gvsavtarg && t.opcode ≠ .gvrectarg && (!t.opcode.isJump || t.opcode.isCall)

/-- The operation at the place of `m`, on a chain of length `n`. -/
def ChainSem.operate (S : ChainSem σ G) (n : Nat) (m : ChainConf σ G) : ChainConf σ G :=
  let r := S.exec m.pc m.st m.targ m.saved
  { pc := match r.2.2.2 with
      | .fall => m.pc + 1
      | .goto p => p
      | .stop => n
    st := r.1, targ := r.2.1, saved := r.2.2.1, seen := m.seen ++ [(m.pc, m.targ)] }

/-- One step of the code of triple `t`, on a chain of length `n`. -/
def ChainSem.stepTriple (S : ChainSem σ G) (n : Nat) (t : JmpTriple) (m : ChainConf σ G) : Option (ChainConf σ G) :=
  if t.opcode.cgskip then some { m with pc := m.pc + 1 }
  else if t.opcode = .gvsavtarg then some { m with pc := m.pc + 1, saved := Function.update m.saved m.pc m.targ }
  else if t.opcode = .gvrectarg then
    match t.operand0 with
    | .tripRef s => some { m with pc := m.pc + 1, targ := m.saved s }
    | _ => none
  else if t.isOperation then some (S.operate n m)
  else
    match t.operand0 with
    | .tjmpRef p => some { m with pc := if t.opcode = .jmp || S.taken m.pc m.st then p else m.pc + 1 }
    | _ => none

/-- One step of the code of a chain. -/
def ChainSem.step (S : ChainSem σ G) (ch : List JmpTriple) (m : ChainConf σ G) : Option (ChainConf σ G) :=
  match ch[m.pc]? with
  | some t => S.stepTriple ch.length t m
  | none => none

/-- A run of the code of a chain. -/
def ChainSem.Runs (S : ChainSem σ G) (ch : List JmpTriple) : ChainConf σ G → ChainConf σ G → Prop :=
  StateTransition.Reaches (S.step ch)

/-- What can be observed of a run of a chain: that an operation is about to be done, and that the run has ended. -/
def observable (ch : List JmpTriple) (m : ChainConf σ G) : Bool :=
  match ch[m.pc]? with
  | some t => t.isOperation
  | none => true

/-! ## The chains it is given -/

/-- A chain as `jmp_opto` receives it: a jump has its place as operand, `jmplist` has exactly the jumps to a triple, and a restore
is of a save that stands before it. -/
structure FinishedChain (ch : List JmpTriple) : Prop where
  jump : ∀ (p : Nat) (t : JmpTriple), ch[p]? = some t → t.opcode.isJump = true → ∃ q, t.operand0 = .tjmpRef q ∧ q < ch.length
  jmplist : ∀ (q : Nat) (u : JmpTriple), ch[q]? = some u →
    ∀ p, p ∈ u.jmplist ↔ ∃ t : JmpTriple, ch[p]? = some t ∧ t.opcode.isJump = true ∧ t.operand0 = .tjmpRef q
  restore : ∀ (r : Nat) (u : JmpTriple), ch[r]? = some u → u.opcode = .gvrectarg →
    ∃ (s : Nat) (t : JmpTriple), u.operand0 = .tripRef s ∧ s < r ∧ ch[s]? = some t ∧ t.opcode = .gvsavtarg

/-- Nothing is generated for the triple at place `p`. -/
def SkipAt (ch : List JmpTriple) (p : Nat) : Prop := ∀ t, ch[p]? = some t → t.opcode.cgskip = true

/-- A place that a run can come to other than from the triple before it: the start, a triple that a jump goes to, the triple an
operation or a jump returns to, and every triple with code of its own that is not a restore. -/
def EntryPlace (ch : List JmpTriple) (p : Nat) : Prop :=
  p = 0 ∨ (∀ t, ch[p - 1]? = some t → t.opcode.cgskip = false ∧ t.saveRef (p - 1) = none) ∨
    ∀ t, ch[p]? = some t → t.jmplist ≠ [] ∨ t.opcode.cgskip = false ∧ t.opcode ≠ .gvrectarg

/-- Operations send the run to entry places only. -/
def ChainSem.Enters (S : ChainSem σ G) (ch : List JmpTriple) : Prop :=
  ∀ k st targ saved p, (S.exec k st targ saved).2.2.2 = .goto p → EntryPlace ch p

/-- A superfluous restore is reached from the save or restore before it only: no jump goes to the triples without code that stand
between the two. -/
def RestoresUnentered (ch : List JmpTriple) : Prop :=
  ∀ (c : Nat) (t : JmpTriple) save (r : Nat) (u : JmpTriple), ch[c]? = some t → t.saveRef c = some save →
    c < r → ch[r]? = some u → u.superfluous save = true →
    (∀ k, c < k → k < r → SkipAt ch k) → ∀ k (v : JmpTriple), c < k → k < r → ch[k]? = some v → v.jmplist = []

/-- A jump at `j` that is taken out together with those after it up to `terminal`, when the jump before `terminal` is looked at. -/
def JumpsOnto (ch : List JmpTriple) (terminal j : Nat) : Prop :=
  ∃ (t : JmpTriple) (q : Nat), ch[j]? = some t ∧ t.opcode.optoJump = true ∧ t.operand0 = .tjmpRef q ∧ j < q ∧ q ≤ terminal ∧
    (q = j + 1 → terminal = j + 1)

/-- No `OC_FORLCLDO`, which is a call, stands among jumps that all lead to the triple after them. -/
def ForCallsKept (ch : List JmpTriple) : Prop :=
  ∀ (i : Nat) (t : JmpTriple) (terminal : Nat), ch[i]? = some t → t.opcode = .forlcldo → i < terminal → ¬ SkipAt ch terminal →
    ¬ ∀ j, i ≤ j → j < terminal → JumpsOnto ch terminal j

end Gtm
