import Mathlib

/-!
# Local variables and their collection

The base variables (`lv_val`) of a symbol table, the subscript trees below them, and `als_lvval_gc`, which frees the base variables
that are kept alive only by alias containers in one another (`alias_funcs.c`, `alias.h`, `lv_killarray.c`, `lv_val.h`). A base
variable is known by its slot in the blocks of the symbol table. The reference counts are integers, and every macro that changes one
fails where an assertion of the source would. `Option` is the result of a macro or a routine: `none` is a failed assertion or a
recursion that was cut off.
-/

namespace Gtm

variable {α : Type}

/-- The nodes below a variable, as the tree of one subscript level (`lvTree`, `lvTreeNode`). A node has its subscript and value `v`,
the base variable it points to if it is an alias container, and the tree of the next subscript level. -/
inductive LvTree (α : Type) where
  | nil
  | node (left : LvTree α) (v : α) (cont : Option Nat) (child : LvTree α) (right : LvTree α)
deriving DecidableEq, Repr

namespace LvTree

def isNil : LvTree α → Bool
  | nil => true
  | node .. => false

/-- The base variables that the containers of a tree point to, in the order in which `lv_killarray` comes to the containers. -/
def conts : LvTree α → List Nat
  | nil => []
  | node left _ cont child right => left.conts ++ (right.conts ++ (child.conts ++ cont.toList))

end LvTree

/-- A base variable (`lv_val`). `symval` says that `LV_SYMVAL` is not `NULL`, which it is in a freed slot. -/
structure LvVal (α : Type) where
  symval : Bool
  v : α
  child : LvTree α := .nil
  trefcnt : Int
  crefcnt : Int
  lvtaskcycle : Nat := 0
  hasAliascont : Bool := false

/-- The base variables of a symbol table: the slots of its blocks in use, those on the free list, and the cycle of the marks. -/
structure LvStore (α : Type) where
  slots : Nat
  lv : Nat → LvVal α
  lvFlist : List Nat := []
  lvtaskcycle : Nat := 0

namespace LvStore

def modify (s : LvStore α) (a : Nat) (f : LvVal α → LvVal α) : LvStore α :=
  { s with lv := Function.update s.lv a (f (s.lv a)) }

/-! ## The reference counts -/

/-- `INCR_TREFCNT`. -/
def incrTrefcnt (a : Nat) (s : LvStore α) : Option (LvStore α) :=
  let t := (s.lv a).trefcnt + 1
  if (s.lv a).symval ∧ 0 < t ∧ (s.lv a).crefcnt < t then some (s.modify a (fun l => { l with trefcnt := t })) else none

/-- `DECR_TREFCNT`. -/
def decrTrefcnt (a : Nat) (s : LvStore α) : Option (LvStore α) :=
  let t := (s.lv a).trefcnt - 1
  if (s.lv a).symval ∧ (s.lv a).crefcnt < (s.lv a).trefcnt ∧ 0 ≤ t then some (s.modify a (fun l => { l with trefcnt := t }))
  else none

/-- `DECR_CREFCNT`. -/
def decrCrefcnt (a : Nat) (s : LvStore α) : Option (LvStore α) :=
  let c := (s.lv a).crefcnt - 1
  if (s.lv a).symval ∧ 0 ≤ c ∧ c < (s.lv a).trefcnt then some (s.modify a (fun l => { l with crefcnt := c })) else none

/-- `LV_FREESLOT` and `LV_FLIST_ENQUEUE`. -/
def freeslot (a : Nat) (s : LvStore α) : Option (LvStore α) :=
  if (s.lv a).symval ∧ (s.lv a).child.isNil then
    some { s.modify a (fun l => { l with symval := false }) with lvFlist := a :: s.lvFlist }
  else none

/-- `LV_CHILD` set to `NULL`. -/
def detach (a : Nat) (s : LvStore α) : LvStore α := s.modify a (fun l => { l with child := .nil })

/-! ## Killing a tree -/

/-- `DECR_AC_REF` of a container that points to `a`, without copies for a transaction. `decr` is `DECR_BASE_REF_NOSYM`. -/
def decrAcRef (decr : Nat → LvStore α → Option (LvStore α)) (a : Nat) (s : LvStore α) : Option (LvStore α) :=
  if 0 < (s.lv a).crefcnt ∧ 0 < (s.lv a).trefcnt then (s.decrCrefcnt a).bind (decr a) else none

/-- `lv_killarray`: the nodes of a tree in post-order, each after the tree below it. -/
def lvKillarray (decr : Nat → LvStore α → Option (LvStore α)) : LvTree α → LvStore α → Option (LvStore α)
  | .nil, s => some s
  | .node left _ cont child right, s => do
    let s ← lvKillarray decr left s
    let s ← lvKillarray decr right s
    let s ← lvKillarray decr child s
    match cont with
    | some a => decrAcRef decr a s
    | none => some s

/-- `DECR_BASE_REF_NOSYM`, with `LVP_KILL_SUBTREE_IF_EXISTS`. The fuel bounds how deep the deletions of base variables nest. -/
def decrBaseRefNosym : Nat → Nat → LvStore α → Option (LvStore α)
  | 0, _, _ => none
  | fuel + 1, a, s => do
    let s ← s.decrTrefcnt a
    if (s.lv a).trefcnt = 0 then
      if (s.lv a).crefcnt = 0 then
        let s ← lvKillarray (decrBaseRefNosym fuel) (s.lv a).child (s.detach a)
        s.freeslot a
      else none
    else if (s.lv a).crefcnt ≤ (s.lv a).trefcnt then some s else none

/-! ## Marking -/

/-- The variable that a node points to marked, if the node is a container. -/
def markCntnr (mark : Nat → LvStore α → Option (LvStore α)) : Option Nat → LvStore α → Option (LvStore α)
  | some a, s => mark a s
  | none, s => some s

/-- `als_prcs_markreached_cntnr`: the nodes of a tree in order. `mark` is `MARK_REACHABLE`. -/
def prcsMarkreachedCntnr (mark : Nat → LvStore α → Option (LvStore α)) : LvTree α → LvStore α → Option (LvStore α)
  | .nil, s => some s
  | .node left _ cont child right, s => do
    let s ← prcsMarkreachedCntnr mark left s
    let s ← markCntnr mark cont s
    let s ← prcsMarkreachedCntnr mark child s
    prcsMarkreachedCntnr mark right s

/-- `MARK_REACHABLE`. A pointer to a slot that was freed is passed over. -/
def markReachable : Nat → Nat → LvStore α → Option (LvStore α)
  | 0, _, _ => none
  | fuel + 1, a, s =>
    if (s.lv a).symval ∧ (s.lv a).lvtaskcycle ≠ s.lvtaskcycle then
      let s := s.modify a (fun l => { l with lvtaskcycle := s.lvtaskcycle })
      if !(s.lv a).child.isNil && (s.lv a).hasAliascont then
        prcsMarkreachedCntnr (markReachable fuel) (s.lv a).child s
      else some s
    else some s

/-- `INCR_LVTASKCYCLE`: when the counter wraps, the marks of all slots are cleared. -/
def incrLvtaskcycle (s : LvStore α) : LvStore α :=
  if (s.lvtaskcycle + 1) % 2 ^ 32 = 0 then
    { s with
      lv := fun a => if a < s.slots then { s.lv a with lvtaskcycle := 0 } else s.lv a
      lvtaskcycle := 1 }
  else { s with lvtaskcycle := (s.lvtaskcycle + 1) % 2 ^ 32 }

/-- Every pointer of a list marked in turn. -/
def markAll (fuel : Nat) : List Nat → LvStore α → Option (LvStore α)
  | [], s => some s
  | a :: rest, s => do
    let s ← markReachable fuel a s
    markAll fuel rest s

/-! ## The final scan -/

/-- An orphan that is still intact: one count is added while its tree is killed. -/
def killOrphan (fuel a : Nat) (s : LvStore α) : Option (LvStore α) := do
  if (s.lv a).trefcnt = (s.lv a).crefcnt then
    let s ← s.incrTrefcnt a
    let s ← lvKillarray (decrBaseRefNosym fuel) (s.lv a).child (s.detach a)
    decrBaseRefNosym fuel a s
  else none

/-- Step 10 of `als_lvval_gc`: the scan of the list of base variables, with `killcnt`. -/
def sweep (fuel : Nat) : List Nat → Nat → LvStore α → Option (Nat × LvStore α)
  | [], killcnt, s => some (killcnt, s)
  | a :: rest, killcnt, s =>
    if (s.lv a).lvtaskcycle ≠ s.lvtaskcycle then
      if (s.lv a).symval then do
        let s ← s.killOrphan fuel a
        sweep fuel rest (killcnt + 1) s
      else sweep fuel rest (killcnt + 1) s
    else sweep fuel rest killcnt s

end LvStore

/-! ## The references that are not containers -/

/-- An entry of the M stack (`mv_stent`), with the base variables that it points to. A parameter that is not bound yet has no
`save_value`. -/
inductive MvStent where
  | ntab (saveValue : Nat)
  | pval (mvsVal : Nat) (saveValue : Option Nat)
  | nval (mvsVal saveValue : Nat)
  | lval (mvsLvval : Nat)
  | stab
  | other
deriving DecidableEq, Repr

/-- A frame of the TP stack, with the current and the saved value of each of its variables (`tp_frame`, `tp_var`). -/
structure TpFrame where
  sym : Nat
  vars : List (Nat × Nat)

/-- The base variables that the M stack points to, up to the entry where the symbol table changes. -/
def mvChainRefs : List MvStent → List Nat
  | [] => []
  | .ntab saveValue :: rest => saveValue :: mvChainRefs rest
  | .pval mvsVal saveValue :: rest => mvsVal :: (saveValue.toList ++ mvChainRefs rest)
  | .nval mvsVal saveValue :: rest => mvsVal :: saveValue :: mvChainRefs rest
  | .lval mvsLvval :: rest => mvsLvval :: mvChainRefs rest
  | .stab :: _ => []
  | .other :: rest => mvChainRefs rest

/-- The base variables that the frames of the TP stack made in symbol table `sym` point to. -/
def tpFrameRefs (sym : Nat) (frames : List TpFrame) : List Nat :=
  (frames.takeWhile (fun tf => tf.sym = sym)).flatMap (fun tf => tf.vars.flatMap (fun v => [v.1, v.2]))

/-- The current symbol table with all that points into it. An entry of the hash table that is not valid is `none`. -/
structure Symtab (α : Type) extends LvStore α where
  currSymval : Nat := 0
  hSymtab : List (Option Nat) := []
  mvChain : List MvStent := []
  tpPointer : List TpFrame := []
  aliasRetarg : Option Nat := none
  zsearchVar : Option Nat := none

namespace Symtab

/-- The references of steps 4 to 9 of `als_lvval_gc`, in that order. -/
def refs (st : Symtab α) : List Nat :=
  st.hSymtab.reduceOption ++ (mvChainRefs st.mvChain ++ (tpFrameRefs st.currSymval st.tpPointer ++ st.aliasRetarg.toList))

/-- Steps 1 and 2: the base variables, other than the one of `$ZSEARCH`. -/
def lvarray (st : Symtab α) : List Nat :=
  (List.range st.slots).filter (fun a => (st.lv a).symval && decide (st.zsearchVar ≠ some a))

/-- `als_lvval_gc`. Neither marks nor deletions nest deeper than there are slots. -/
def alsLvvalGc (st : Symtab α) : Option (Nat × Symtab α) := do
  let s := st.toLvStore.incrLvtaskcycle
  let s ← LvStore.markAll (st.slots + 1) st.refs s
  let r ← LvStore.sweep (st.slots + 1) st.lvarray 0 s
  some (r.1, { st with toLvStore := r.2 })

end Symtab

/-! ## What the counts count -/

namespace LvStore

/-- The containers in the tree of a slot in use. -/
def treeConts (s : LvStore α) (b : Nat) : List Nat := if (s.lv b).symval then (s.lv b).child.conts else []

/-- The number of alias containers that point to `a`. -/
def cntnrs (s : LvStore α) (a : Nat) : Nat := ∑ b ∈ Finset.range s.slots, (s.treeConts b).count a

end LvStore

/-- A base variable that can be reached from a reference through containers. The variable of `$ZSEARCH` counts as referenced. -/
inductive Symtab.Reachable (st : Symtab α) : Nat → Prop where
  | ref {a : Nat} (ha : a ∈ st.refs ∨ st.zsearchVar = some a) (hl : (st.lv a).symval = true) : Reachable st a
  | cont {b a : Nat} (hb : Reachable st b) (ha : a ∈ st.treeConts b) : Reachable st a

/-- A symbol table whose counts are right. `held` is what the references that are not containers add to the total count of a
variable, and `cheld` what they add to its count of containers. A reference that is not a container need not be counted by itself: the
variable of a bound parameter is found on the stack and in the hash table and counted once, and a copy made for a transaction has the
counts of its original. -/
structure Symtab.RightCounts (st : Symtab α) (held cheld : Nat → Nat) : Prop where
  slots : ∀ a, (st.lv a).symval = true → a < st.slots
  target : ∀ b, ∀ a ∈ st.treeConts b, (st.lv a).symval = true
  crefcnt : ∀ a, (st.lv a).symval = true → (st.lv a).crefcnt = ((st.cntnrs a + cheld a : Nat) : Int)
  trefcnt : ∀ a, (st.lv a).symval = true → (st.lv a).trefcnt = ((st.cntnrs a + held a : Nat) : Int)
  cheld_le : ∀ a, cheld a ≤ held a
  held_pos : ∀ a, (st.lv a).symval = true → (0 < held a ↔ a ∈ st.refs ∨ st.zsearchVar = some a)
  aliascont : ∀ a, st.treeConts a ≠ [] → (st.lv a).hasAliascont = true
  zsearch : ∀ a, st.zsearchVar = some a → st.treeConts a = []
  cycle : ∀ a, (st.lv a).symval = true → (st.lv a).lvtaskcycle ≤ st.lvtaskcycle
  cycle_lt : st.lvtaskcycle < 2 ^ 32

end Gtm
