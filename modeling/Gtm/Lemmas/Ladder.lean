import Gtm.Compiler.Machine

/-!
# What the ladder passes put in the chain

Editing a chain at a triple that stands in it once; well-formedness of the chain along `ex_tail` and `bx_tail`; and, for each of
the two, the segment it leaves in place of the triples of its tree and what running that segment does.
-/

namespace Gtm

variable {σ V : Type}

namespace LadderAux

/-- The addresses of a list of triples. -/
def ids (l : List Triple) : List Nat := l.map Triple.id

@[simp] theorem ids_append (l l' : List Triple) : ids (l ++ l') = ids l ++ ids l' := List.map_append

@[simp] theorem ids_cons (x : Triple) (l : List Triple) : ids (x :: l) = x.id :: ids l := rfl

@[simp] theorem ids_nil : ids [] = [] := rfl

variable {pre : List Triple} {t : Nat} {x ref : Triple}

theorem dqins_append (ref : Triple) (post : List Triple) (hp : t ∉ ids pre) (hx : x.id = t) :
    dqins t ref (pre ++ x :: post) = pre ++ x :: ref :: post := by
  induction pre with
  | nil => simp [dqins, hx]
  | cons y pre ih =>
    simp only [ids_cons, List.mem_cons, not_or] at hp
    simp [dqins, Ne.symm hp.1, ih hp.2]

theorem dqrins_append (ref : Triple) (post : List Triple) (hp : t ∉ ids pre) (hx : x.id = t) :
    dqrins t ref (pre ++ x :: post) = pre ++ ref :: x :: post := by
  induction pre with
  | nil => simp [dqrins, hx]
  | cons y pre ih =>
    simp only [ids_cons, List.mem_cons, not_or] at hp
    simp [dqrins, Ne.symm hp.1, ih hp.2]

theorem setTriple_append (f : Triple → Triple) (post : List Triple)
    (hp : t ∉ ids pre) (hx : x.id = t) : setTriple t f (pre ++ x :: post) = pre ++ f x :: post := by
  induction pre with
  | nil => simp [setTriple, hx]
  | cons y pre ih =>
    simp only [ids_cons, List.mem_cons, not_or] at hp
    simp [setTriple, Ne.symm hp.1, ih hp.2]

/-- A triple that stands in the chain once is found where it stands. -/
theorem findIdx_append (post : List Triple) (hp : t ∉ ids pre) (hx : x.id = t) :
    (pre ++ x :: post).findIdx? (fun y => y.id = t) = some pre.length := by
  induction pre with
  | nil => simp [List.findIdx?_cons, hx]
  | cons y pre ih =>
    simp only [ids_cons, List.mem_cons, not_or] at hp
    simp [List.findIdx?_cons, Ne.symm hp.1, ih hp.2]

/-- An element of a list without repetitions is not in what stands before it. -/
theorem not_mem_pre {l : List Nat} (l' : List Nat) (h : (l ++ t :: l').Nodup) : t ∉ l := by
  intro ht
  have := (List.nodup_append.mp h).2.2 t ht t (by simp)
  exact this rfl

/-! ## Well-formed chains -/

theorem mem_dqins {l : List Triple} {y : Triple} (h : y ∈ dqins t ref l) : y = ref ∨ y ∈ l := by
  induction l with
  | nil => simp [dqins] at h
  | cons x l ih =>
    simp only [dqins] at h
    split at h
    · simp only [List.mem_cons] at h ⊢
      tauto
    · rcases List.mem_cons.mp h with h | h
      · exact Or.inr (by simp [h])
      · rcases ih h with h | h
        · exact Or.inl h
        · exact Or.inr (by simp [h])

theorem mem_dqrins {l : List Triple} {y : Triple} (h : y ∈ dqrins t ref l) : y = ref ∨ y ∈ l := by
  induction l with
  | nil => simp [dqrins] at h
  | cons x l ih =>
    simp only [dqrins] at h
    split at h
    · simp only [List.mem_cons] at h ⊢
      tauto
    · rcases List.mem_cons.mp h with h | h
      · exact Or.inr (by simp [h])
      · rcases ih h with h | h
        · exact Or.inl h
        · exact Or.inr (by simp [h])

theorem ids_setTriple {f : Triple → Triple} (hf : ∀ x, (f x).id = x.id) (l : List Triple) : ids (setTriple t f l) = ids l := by
  induction l with
  | nil => rfl
  | cons x l ih =>
    simp only [setTriple]
    split
    · simp [hf]
    · simp [ih]

theorem nodup_dqins {l : List Triple} (h : (ids l).Nodup) (hr : ref.id ∉ ids l) : (ids (dqins t ref l)).Nodup := by
  induction l with
  | nil => simp [dqins]
  | cons x l ih =>
    simp only [ids_cons, List.nodup_cons, List.mem_cons, not_or] at h hr
    simp only [dqins]
    split
    · simp only [ids_cons, List.nodup_cons, List.mem_cons, not_or]
      exact ⟨⟨Ne.symm hr.1, h.1⟩, hr.2, h.2⟩
    · simp only [ids_cons, List.nodup_cons]
      refine ⟨fun hm => ?_, ih h.2 hr.2⟩
      obtain ⟨y, hy, hyx⟩ := List.mem_map.mp hm
      rcases mem_dqins hy with rfl | hy
      · exact hr.1 hyx
      · exact h.1 (hyx ▸ List.mem_map_of_mem hy)

theorem nodup_dqrins {l : List Triple} (h : (ids l).Nodup) (hr : ref.id ∉ ids l) : (ids (dqrins t ref l)).Nodup := by
  induction l with
  | nil => simp [dqrins]
  | cons x l ih =>
    simp only [ids_cons, List.nodup_cons, List.mem_cons, not_or] at h hr
    simp only [dqrins]
    split
    · simp only [ids_cons, List.nodup_cons, List.mem_cons, not_or]
      exact ⟨⟨hr.1, hr.2⟩, h.1, h.2⟩
    · simp only [ids_cons, List.nodup_cons]
      refine ⟨fun hm => ?_, ih h.2 hr.2⟩
      obtain ⟨y, hy, hyx⟩ := List.mem_map.mp hm
      rcases mem_dqrins hy with rfl | hy
      · exact hr.1 hyx
      · exact h.1 (hyx ▸ List.mem_map_of_mem hy)

end LadderAux

open LadderAux

/-- A chain in which every triple stands once and no triple has an address that is still to be given. -/
structure Comp.WF (s : Comp) : Prop where
  nodup : (s.chain.map Triple.id).Nodup
  fresh : ∀ x ∈ s.chain, x.id < s.nextId

namespace Comp.WF

variable {s : Comp}

theorem next_not_mem (h : s.WF) : s.nextId ∉ ids s.chain := by
  intro hm
  obtain ⟨y, hy, hyn⟩ := List.mem_map.mp hm
  have := h.fresh y hy
  omega

section
variable (h : s.WF) (t : Nat)
include h t

theorem dqins (ref : Triple) (hr : ref.id = s.nextId) : WF { s with chain := Gtm.dqins t ref s.chain, nextId := s.nextId + 1 } := by
  refine ⟨nodup_dqins h.nodup (hr ▸ h.next_not_mem), ?_⟩
  intro y hy
  rcases mem_dqins hy with rfl | hy
  · simp [hr]
  · exact Nat.lt_succ_of_lt (h.fresh y hy)

theorem dqrins (ref : Triple) (hr : ref.id = s.nextId) : WF { s with chain := Gtm.dqrins t ref s.chain, nextId := s.nextId + 1 } := by
  refine ⟨nodup_dqrins h.nodup (hr ▸ h.next_not_mem), ?_⟩
  intro y hy
  rcases mem_dqrins hy with rfl | hy
  · simp [hr]
  · exact Nat.lt_succ_of_lt (h.fresh y hy)

theorem insJump (c : Opcode) (addr : Nat) : (s.insJump t c addr).WF := h.dqins t _ rfl

theorem update {f : Triple → Triple} (hf : ∀ x, (f x).id = x.id) : (s.update t f).WF := by
  have hi : (setTriple t f s.chain).map Triple.id = s.chain.map Triple.id := ids_setTriple hf s.chain
  refine ⟨by rw [Comp.update, hi]; exact h.nodup, ?_⟩
  intro y hy
  have hm : y.id ∈ s.chain.map Triple.id := hi ▸ List.mem_map_of_mem hy
  obtain ⟨z, hz, hzy⟩ := List.mem_map.mp hm
  exact hzy ▸ h.fresh z hz

theorem noop : (s.noop t).WF := h.update t fun _ => rfl

end

theorem newCell (h : s.WF) (o : Oprtype) : (s.newCell o).WF := ⟨h.nodup, h.fresh⟩

end Comp.WF

/-- `bx_boolop` keeps a chain well formed when `bx_tail` of its operands does. -/
theorem bxBoolop_wf {tail0 tail1 : Bool → Nat → Comp → Comp} (h0 : ∀ b a s, s.WF → (tail0 b a s).WF)
    (h1 : ∀ b a s, s.WF → (tail1 b a s).WF) (t : Nat) (jmpTypeOne jmpToNext sense : Bool) (addr : Nat) {s : Comp} (h : s.WF) :
    (bxBoolop tail0 tail1 t jmpTypeOne jmpToNext sense addr s).WF := by
  cases jmpToNext
  · exact (h1 _ _ _ (h0 _ _ _ h)).noop t
  · exact (h1 _ _ _ (h0 _ _ _ (h.newCell _))).noop t

mutual

theorem exTail_wf (x : Opnd) (s : Comp) (h : s.WF) : (exTail x s).WF := by
  cases x with
  | leaf t c hc => simpa only [exTail] using h
  | comval t e =>
    simp only [exTail]
    have h1 := h.dqrins e.leftmost { id := s.nextId, opcode := .boolinit } rfl
    have h2 := h1.dqins e.tref { id := s.nextId + 1, opcode := .boolfini, operand0 := .tripRef s.nextId } rfl
    have h3 := h2.update t (f := fun x => { x with operand0 := .tripRef s.nextId }) fun _ => rfl
    have h4 := bxTail_wf e false s.cells.length _ (h3.newCell .noRef)
    exact ⟨h4.nodup, h4.fresh⟩

theorem bxTail_wf (e : BoolExpr) (sense : Bool) (addr : Nat) (s : Comp) (h : s.WF) : (bxTail e sense addr s).WF := by
  cases e with
  | cobool t x =>
    simp only [bxTail]
    split
    · exact ((exTail_wf _ s h).noop _).update t fun _ => rfl
    · exact (exTail_wf x s h).insJump t _ addr
  | com t e =>
    simp only [bxTail]
    exact (bxTail_wf e _ addr s h).noop t
  | rel t c negated a b =>
    simp only [bxTail]
    exact exTail_wf b _ (exTail_wf a _ ((h.insJump t _ addr).update t fun _ => rfl))
  | bool t c negated l r =>
    cases c
    · simp only [bxTail]
      exact bxBoolop_wf (fun b a s h => bxTail_wf l b a s h) (fun b a s h => bxTail_wf r b a s h) t _ _ _ addr h
    · simp only [bxTail]
      exact bxBoolop_wf (fun b a s h => bxTail_wf l b a s h) (fun b a s h => bxTail_wf r b a s h) t _ _ _ addr h

end

end Gtm

/-!
## Running a ladder

The segment of the chain that `bx_tail` leaves for a Boolean expression, run from its first triple, ends at the target or right
after the segment, as the truth value and the sense say, with the operands evaluated as short-circuit evaluation does; and the
segment `ex_tail` leaves for an operand computes its value. Nothing else is touched.
-/

namespace Gtm

open LadderAux

variable {σ V : Type}

/-- The values and Boolean temporaries of triples outside `l` are the same. -/
def Mach.Frame (l : List Nat) (m m' : Mach σ V) : Prop :=
  ∀ t, t ∉ l → m'.vals t = m.vals t ∧ m'.bools t = m.bools t

namespace LadderAux

theorem Frame.refl (l : List Nat) (m : Mach σ V) : m.Frame l m := fun _ _ => ⟨rfl, rfl⟩

theorem Frame.trans {l l1 l2 : List Nat} {m m1 m2 : Mach σ V} (h1 : m.Frame l1 m1) (h2 : m1.Frame l2 m2) (hs1 : l1 ⊆ l)
    (hs2 : l2 ⊆ l) : m.Frame l m2 := by
  intro t ht
  obtain ⟨hv1, hb1⟩ := h1 t fun h => ht (hs1 h)
  obtain ⟨hv2, hb2⟩ := h2 t fun h => ht (hs2 h)
  exact ⟨hv2.trans hv1, hb2.trans hb1⟩

/-- The cells from `base` on are filled as `cells` says. -/
def Agrees (base : Nat) (cells : List Oprtype) (cell : Nat → Oprtype) : Prop :=
  ∀ i o, base ≤ i → cells[i]? = some o → cell i = o

theorem Agrees.mono {base base' : Nat} {cells cells' : List Oprtype} {cell : Nat → Oprtype} (h : Agrees base cells cell)
    (hb : base ≤ base') (hc : cells' <+: cells) : Agrees base' cells' cell := by
  intro i o hi ho
  obtain ⟨rest, rfl⟩ := hc
  have hl : i < cells'.length := (List.getElem?_eq_some_iff.mp ho).1
  exact h i o (Nat.le_trans hb hi) (by rw [List.getElem?_append_left hl, ho])

end LadderAux

theorem Sem.Runs.trans {S : Sem σ V} {code : List Triple} {cell : Nat → Oprtype} {m m' m'' : Mach σ V}
    (h : S.Runs code cell m m') (h' : S.Runs code cell m' m'') : S.Runs code cell m m'' :=
  Relation.ReflTransGen.trans h h'

theorem Sem.Runs.single {S : Sem σ V} {code : List Triple} {cell : Nat → Oprtype} {m m' : Mach σ V}
    (h : S.step code cell m = some m') : S.Runs code cell m m' :=
  Relation.ReflTransGen.single h

/-- The code computes the operand: run from its first triple it ends right after it, with the value of the operand in its triple. -/
def Sem.Computes (S : Sem σ V) (code : List Triple) (cell : Nat → Oprtype) (x : Opnd) : Prop :=
  ∀ pre post, (ids (pre ++ code ++ post)).Nodup → ∀ m : Mach σ V, m.pc = pre.length →
    ∃ m', S.Runs (pre ++ code ++ post) cell m m' ∧ m'.pc = pre.length + code.length ∧
      m'.vals x.tref = some (S.evalOpnd x m.st).1 ∧ m'.st = (S.evalOpnd x m.st).2.1 ∧
      m'.evaluated = m.evaluated ++ (S.evalOpnd x m.st).2.2 ∧ m.Frame (ids code) m'

/-- The code is a ladder for the expression: run from its first triple it ends at the place of `addr` when the expression has the
truth value `sense`, and right after the code otherwise. An `OC_BOOLINIT` put before the first test is executed in any case. -/
def Sem.Ladder (S : Sem σ V) (code : List Triple) (cell : Nat → Oprtype) (bitrip : Option Nat) (e : BoolExpr) (sense : Bool)
    (addr : Nat) : Prop :=
  ∀ pre post, (ids (pre ++ code ++ post)).Nodup → ∀ target, place (pre ++ code ++ post) cell (.indrRef addr) = some target →
    ∀ m : Mach σ V, m.pc = pre.length →
      ∃ m', S.Runs (pre ++ code ++ post) cell m m' ∧
        m'.pc = (if (S.evalBool e m.st).1 = sense then target else pre.length + code.length) ∧
        m'.st = (S.evalBool e m.st).2.1 ∧ m'.evaluated = m.evaluated ++ (S.evalBool e m.st).2.2 ∧
        (∀ b, bitrip = some b → m'.bools b = false) ∧ m.Frame (ids code) m'

/-- The `OC_BOOLINIT` that may stand before the first test. -/
def initTrip : Option Nat → List Triple
  | none => []
  | some b => [{ id := b, opcode := .boolinit }]

/-- The triples of a Boolean expression with others put before its first Boolean triple. -/
def BoolExpr.layoutWith (ins : List Triple) : BoolExpr → List Triple
  | .cobool t x => x.layout ++ ins ++ [{ id := t, opcode := .cobool, operand0 := .tripRef x.tref }]
  | .com t e => e.layoutWith ins ++ [{ id := t, opcode := .com, operand0 := .tripRef e.tref }]
  | .rel t c negated a b => a.layout ++ b.layout ++ ins ++
      [{ id := t, opcode := c.opcode negated, operand0 := .tripRef a.tref, operand1 := .tripRef b.tref }]
  | .bool t c negated l r => l.layoutWith ins ++ r.layout ++
      [{ id := t, opcode := c.opcode negated, operand0 := .tripRef l.tref, operand1 := .tripRef r.tref }]

namespace LadderAux

theorem layoutWith_nil (e : BoolExpr) : e.layoutWith [] = e.layout := by
  match e with
  | .cobool t x => simp [BoolExpr.layoutWith, BoolExpr.layout]
  | .com t e => simp [BoolExpr.layoutWith, BoolExpr.layout, layoutWith_nil e]
  | .rel t c negated a b => simp [BoolExpr.layoutWith, BoolExpr.layout]
  | .bool t c negated l r => simp [BoolExpr.layoutWith, BoolExpr.layout, layoutWith_nil l]

/-- The triple of a Boolean expression is the last one of its layout. -/
theorem layoutWith_last (ins : List Triple) (e : BoolExpr) : ∃ l x, e.layoutWith ins = l ++ [x] ∧ x.id = e.tref := by
  cases e <;> exact ⟨_, _, rfl, rfl⟩

/-- Where the first Boolean triple stands. -/
theorem layout_leftmost (e : BoolExpr) : ∃ l x l', (∀ ins, e.layoutWith ins = l ++ ins ++ x :: l') ∧ x.id = e.leftmost := by
  match e with
  | .cobool t x => exact ⟨x.layout, _, [], fun ins => rfl, rfl⟩
  | .com t e =>
    obtain ⟨l, x, l', h, hx⟩ := layout_leftmost e
    exact ⟨l, x, _, fun ins => by rw [BoolExpr.layoutWith, h]; simp; rfl, hx⟩
  | .rel t c negated a b => exact ⟨a.layout ++ b.layout, _, [], fun ins => rfl, rfl⟩
  | .bool t c negated l r =>
    obtain ⟨l1, x, l', h, hx⟩ := layout_leftmost l
    exact ⟨l1, x, _, fun ins => by rw [BoolExpr.layoutWith, h]; simp; rfl, hx⟩

/-- The `OC_BOOLINIT` goes before the first Boolean triple. -/
theorem dqrins_leftmost {e : BoolExpr} {ref : Triple} {pre post : List Triple} (h : (ids (pre ++ e.layout ++ post)).Nodup) :
    dqrins e.leftmost ref (pre ++ e.layout ++ post) = pre ++ e.layoutWith [ref] ++ post := by
  obtain ⟨l, x, l', hl, hx⟩ := layout_leftmost e
  rw [← layoutWith_nil e, hl] at h ⊢
  rw [hl]
  have hn : e.leftmost ∉ ids (pre ++ l) := by
    apply not_mem_pre (ids (l' ++ post))
    simpa [hx] using h
  have := dqrins_append ref (l' ++ post) hn hx
  simpa using this

/-! ## Single triples -/

section

variable {S : Sem σ V} {cell : Nat → Oprtype} {m : Mach σ V} {pre post : List Triple} {x : Triple}

section
variable (h : m.pc = pre.length)
include h

theorem fetch {α : Type} (f : Triple → Option α) : (pre ++ x :: post)[m.pc]? >>= f = f x := by
  simp [h]

theorem step_leaf (hx : x.opcode.exprleaf = true) :
    S.step (pre ++ x :: post) cell m = some { m with
      pc := m.pc + 1, st := (S.value x.id m.st).2, vals := Function.update m.vals x.id (some (S.value x.id m.st).1)
      evaluated := m.evaluated ++ [x.id] } := by
  rw [Sem.step, fetch h]
  cases hc : x.opcode <;> simp_all [Opcode.exprleaf]

theorem step_noop (hx : x.opcode = .noop) : S.step (pre ++ x :: post) cell m = some { m with pc := m.pc + 1 } := by
  rw [Sem.step, fetch h, hx]

theorem step_boolinit (hx : x.opcode = .boolinit) :
    S.step (pre ++ x :: post) cell m = some { m with pc := m.pc + 1, bools := Function.update m.bools x.id false } := by
  rw [Sem.step, fetch h, hx]

end

theorem step_boolfini {b : Nat} (h : m.pc = pre.length) (hx : x.opcode = .boolfini) (h0 : x.operand0 = .tripRef b) :
    S.step (pre ++ x :: post) cell m = some { m with pc := m.pc + 1, bools := Function.update m.bools b true } := by
  rw [Sem.step, fetch h, hx]
  simp only [h0]

theorem step_comval {b : Nat} (h : m.pc = pre.length) (hx : x.opcode = .comval) (h0 : x.operand0 = .tripRef b) :
    S.step (pre ++ x :: post) cell m = some { m with pc := m.pc + 1, vals := Function.update m.vals x.id (some (S.ofBool (m.bools b))) } := by
  rw [Sem.step, fetch h, hx]
  simp only [h0]

theorem step_cobool {v : V} (h : m.pc = pre.length) (hx : x.opcode = .cobool) (h0 : m.opval x.operand0 = some v) :
    S.step (pre ++ x :: post) cell m = some { m with pc := m.pc + 1, cc := if S.truth v then 1 else 0 } := by
  rw [Sem.step, fetch h, hx]
  simp only [h0, Option.bind_eq_bind, Option.bind_some]

theorem step_cmp {c : RelOp} {v0 v1 : V} (h : m.pc = pre.length) (hx : x.opcode = c.cmp)
    (h0 : m.opval x.operand0 = some v0) (h1 : m.opval x.operand1 = some v1) :
    S.step (pre ++ x :: post) cell m = some { m with pc := m.pc + 1, cc := S.cmp c.cmp v0 v1 } := by
  rw [Sem.step, fetch h, hx]
  cases c <;> simp [RelOp.cmp, h0, h1]

/-- The conditional jumps on the condition codes. -/
def condJump : Opcode → Bool
  | .jmpequ | .jmpneq | .jmpgtr | .jmpleq | .jmplss | .jmpgeq => true
  | _ => false

theorem step_jump {target : Nat} (h : m.pc = pre.length) (hx : condJump x.opcode = true)
    (ht : place (pre ++ x :: post) cell x.operand0 = some target) :
    S.step (pre ++ x :: post) cell m = some { m with pc := if S.taken x.opcode m then target else m.pc + 1 } := by
  rw [Sem.step, fetch h]
  cases hc : x.opcode <;> simp_all [condJump] <;> split <;> simp_all

theorem step_jmpt {target : Nat} (h : m.pc = pre.length) (hx : x.opcode = .jmptset ∨ x.opcode = .jmptclr)
    (ht : place (pre ++ x :: post) cell x.operand0 = some target) :
    S.step (pre ++ x :: post) cell m = some { m with
      pc := if S.taken x.opcode m then target else m.pc + 1, evaluated := m.evaluated ++ [x.id] } := by
  have htk : S.taken x.opcode { m with evaluated := m.evaluated ++ [x.id] } = S.taken x.opcode m := by
    rcases hx with hx | hx <;> rw [hx] <;> rfl
  rw [Sem.step, fetch h]
  rcases hx with hx | hx <;> rw [hx] at htk ⊢ <;> simp only [htk, ht] <;> split <;> simp_all

end

/-- The jump `bx_tail` chooses for a comparison is taken when the relation has the truth value `sense`. -/
theorem taken_tst (S : Sem σ V) (c : RelOp) (sense : Bool) (m : Mach σ V) : S.taken (c.tst sense) m = (c.holds m.cc == sense) := by
  cases c <;> cases sense <;> simp [Sem.taken, RelOp.tst, RelOp.holds] <;>
    rw [← decide_not, decide_eq_decide] <;> omega

theorem condJump_tst (c : RelOp) (sense : Bool) : condJump (c.tst sense) = true := by
  cases c <;> cases sense <;> rfl

/-! ## Segments -/

variable {S : Sem σ V} {cell : Nat → Oprtype}

variable {t addr : Nat} {b : Option Nat} {j : Triple} {code : List Triple} {negated : Bool} {l r : BoolExpr}

theorem nodup_sub (l1 l2 l3 : List Triple) (h : (ids (l1 ++ l2 ++ l3)).Nodup) (ht : t ∈ ids l2) : t ∉ ids l1 ∧ t ∉ ids l3 := by
  simp only [ids_append] at h
  obtain ⟨h12, -, h3⟩ := List.nodup_append.mp h
  obtain ⟨-, -, h1⟩ := List.nodup_append.mp h12
  exact ⟨fun hm => h1 t hm t ht rfl, fun hm => h3 t (by simp [ht]) t hm rfl⟩

/-- The Boolean temporaries after the `OC_BOOLINIT`, if there is one. -/
def initBools (b : Option Nat) (bools : Nat → Bool) : Nat → Bool :=
  match b with
  | none => bools
  | some i => Function.update bools i false

theorem init_runs (S : Sem σ V) (cell : Nat → Oprtype) (b : Option Nat) (pre post : List Triple) {m : Mach σ V} (h : m.pc = pre.length) :
    S.Runs (pre ++ initTrip b ++ post) cell m { m with pc := pre.length + (initTrip b).length, bools := initBools b m.bools } := by
  cases b with
  | none =>
    simp only [initTrip, initBools, List.length_nil, Nat.add_zero, ← h]
    exact Relation.ReflTransGen.refl
  | some i =>
    apply Relation.ReflTransGen.single
    rw [List.append_assoc, initTrip, List.singleton_append, step_boolinit h rfl]
    simp [initBools, h]

theorem initBools_frame {i : Nat} {bools : Nat → Bool} (h : i ∉ ids (initTrip b)) : initBools b bools i = bools i := by
  cases b with
  | none => rfl
  | some j =>
    have : i ≠ j := by simpa [initTrip] using h
    simp [initBools, this]

theorem initBools_init {i : Nat} {bools : Nat → Bool} (h : b = some i) : initBools b bools i = false := by
  simp [initBools, h]

theorem computes_leaf (t : Nat) (c : Opcode) (hc : c.exprleaf = true) : S.Computes [{ id := t, opcode := c }] cell (.leaf t c hc) := by
  intro pre post hn m hm
  rw [List.append_assoc, List.singleton_append]
  refine ⟨_, Sem.Runs.single (step_leaf hm hc), ?_, ?_, ?_, ?_, ?_⟩
  · simp [hm]
  · simp [Opnd.tref, Sem.evalOpnd]
  · simp [Sem.evalOpnd]
  · simp [Sem.evalOpnd]
  · intro i hi
    have : i ≠ t := by simpa using hi
    simp [this]

/-- A test and its jump after the `OC_BOOLINIT`: what the two leave, when the test does not look at Boolean temporaries. -/
theorem test_runs (b : Option Nat) (pre post : List Triple) {x : Triple} {m : Mach σ V} {k : Int} {target : Nat}
    (hm : m.pc = pre.length) (hj : condJump j.opcode = true)
    (htest : ∀ (l l' : List Triple) (m' : Mach σ V), m'.pc = l.length → m'.vals = m.vals →
      S.step (l ++ x :: l') cell m' = some { m' with pc := m'.pc + 1, cc := k })
    (ht : place (pre ++ (initTrip b ++ [x, j]) ++ post) cell j.operand0 = some target) :
    S.Runs (pre ++ (initTrip b ++ [x, j]) ++ post) cell m { m with
      pc := if S.taken j.opcode { m with cc := k } then target else pre.length + (initTrip b ++ [x, j]).length
      bools := initBools b m.bools, cc := k } := by
  have hcode : pre ++ (initTrip b ++ [x, j]) ++ post = pre ++ initTrip b ++ (x :: j :: post) := by simp
  have hcode' : pre ++ initTrip b ++ (x :: j :: post) = (pre ++ initTrip b ++ [x]) ++ j :: post := by simp
  rw [hcode] at ht ⊢
  have h1 := init_runs S cell b pre (x :: j :: post) hm
  refine h1.trans (Relation.ReflTransGen.head (htest (pre ++ initTrip b) (j :: post) _ (by simp) rfl) ?_)
  apply Relation.ReflTransGen.single
  rw [hcode'] at ht ⊢
  rw [step_jump (by simp; omega) hj ht]
  have htk : S.taken j.opcode { m with pc := pre.length + (initTrip b).length + 1, bools := initBools b m.bools, cc := k } =
      S.taken j.opcode { m with cc := k } := by
    cases hc : j.opcode <;> simp_all [condJump, Sem.taken]
  have hl : pre.length + (initTrip b).length + 1 + 1 = pre.length + (initTrip b ++ [x, j]).length := by simp; omega
  simp only [htk, hl]

/-! ## The ladder of each kind of expression -/

theorem evalBool_cobool {x : Opnd} (hx : ∀ g h, x ≠ .leaf g .gettruth h) (st : σ) :
    S.evalBool (.cobool t x) st = (S.truth (S.evalOpnd x st).1, (S.evalOpnd x st).2) := by
  cases x with
  | leaf g c h =>
    cases c <;> simp_all [Sem.evalBool]
  | comval u e => simp [Sem.evalBool]

theorem ladder_cobool {x : Opnd} (sense : Bool)
    (hx : ∀ g h, x ≠ .leaf g .gettruth h) (hc : S.Computes code cell x) (hj : j.opcode = if sense then .jmpneq else .jmpequ)
    (hja : j.operand0 = .indrRef addr) :
    S.Ladder (code ++ (initTrip b ++ [{ id := t, opcode := .cobool, operand0 := .tripRef x.tref }, j])) cell b (.cobool t x)
      sense addr := by
  intro pre post hn target ht m hm
  generalize hxt : ({ id := t, opcode := .cobool, operand0 := .tripRef x.tref } : Triple) = xt at hn ht ⊢
  obtain ⟨m1, hr, hpc, hv, hst, hev, hf⟩ := hc pre (initTrip b ++ [xt, j] ++ post) (by simpa using hn) m hm
  have hcode : pre ++ (code ++ (initTrip b ++ [xt, j])) ++ post = pre ++ code ++ (initTrip b ++ [xt, j]) ++ post := by simp
  rw [hcode] at ht ⊢
  rw [← List.append_assoc] at hr
  have htest : ∀ (l l' : List Triple) (m' : Mach σ V), m'.pc = l.length → m'.vals = m1.vals → S.step (l ++ xt :: l') cell m' =
        some { m' with pc := m'.pc + 1, cc := if S.truth (S.evalOpnd x m.st).1 then 1 else 0 } := by
    intro l l' m' hl hvals
    refine step_cobool hl (by rw [← hxt]) ?_
    rw [← hxt]
    simp [Mach.opval, hvals, hv]
  have hjc : condJump j.opcode = true := by rw [hj]; cases sense <;> rfl
  have h2 := test_runs b (pre ++ code) post (by simp [hpc]) hjc htest (hja ▸ ht)
  refine ⟨_, hr.trans h2, ?_, ?_, ?_, ?_, ?_⟩
  · rw [evalBool_cobool hx, hj]
    cases sense <;> cases S.truth (S.evalOpnd x m.st).1 <;> simp [Sem.taken] <;> omega
  · rw [evalBool_cobool hx]
    exact hst
  · rw [evalBool_cobool hx]
    exact hev
  · intro i hi
    exact initBools_init hi
  · intro i hi
    simp only [ids_append, List.mem_append, not_or] at hi
    obtain ⟨h1, h2⟩ := hf i hi.1
    exact ⟨h1, (initBools_frame hi.2.1).trans h2⟩

theorem evalBool_gettruth {g : Nat} {h : Opcode.gettruth.exprleaf = true} (st : σ) :
    S.evalBool (.cobool t (.leaf g .gettruth h)) st = (S.dollarTruth st, st, [t]) := by
  simp [Sem.evalBool]

theorem ladder_gettruth {g : Nat} {h : Opcode.gettruth.exprleaf = true}
    (sense : Bool) (hjt : j.id = t) (hj : j.opcode = if sense then .jmptset else .jmptclr) (hja : j.operand0 = .indrRef addr) :
    S.Ladder ({ id := g, opcode := .noop } :: (initTrip b ++ [j])) cell b (.cobool t (.leaf g .gettruth h)) sense addr := by
  intro pre post hn target ht m hm
  generalize hxt : ({ id := g, opcode := .noop } : Triple) = xt at hn ht ⊢
  have hcode : pre ++ (xt :: (initTrip b ++ [j])) ++ post = pre ++ xt :: (initTrip b ++ j :: post) := by simp
  have hcode1 : pre ++ xt :: (initTrip b ++ j :: post) = (pre ++ [xt]) ++ initTrip b ++ (j :: post) := by simp
  have h1 : S.Runs (pre ++ xt :: (initTrip b ++ j :: post)) cell m { m with pc := m.pc + 1 } :=
    Sem.Runs.single (step_noop hm (by rw [← hxt]))
  have h2 := init_runs S cell b (pre ++ [xt]) (j :: post) (m := { m with pc := m.pc + 1 }) (by simp [hm])
  rw [hcode, hcode1] at ht ⊢
  rw [hcode1] at h1
  have hjc : j.opcode = .jmptset ∨ j.opcode = .jmptclr := by rw [hj]; cases sense <;> simp
  have h3 := Sem.Runs.single (step_jmpt (S := S)
    (m := { m with pc := (pre ++ [xt]).length + (initTrip b).length, bools := initBools b m.bools }) (by simp; omega) hjc
    (hja ▸ ht))
  refine ⟨_, (h1.trans h2).trans h3, ?_, ?_, ?_, ?_, ?_⟩
  · have htk : ∀ m' : Mach σ V, S.taken j.opcode m' = (S.dollarTruth m'.st == sense) := by
      intro m'
      rw [hj]
      cases sense <;> simp [Sem.taken]
    rw [evalBool_gettruth, htk]
    simp only [beq_iff_eq]
    by_cases hd : S.dollarTruth m.st = sense
    · rw [if_pos hd, if_pos hd]
    · rw [if_neg hd, if_neg hd]
      simp
      omega
  · simp [Sem.evalBool]
  · simp [Sem.evalBool, hjt]
  · intro i hi
    exact initBools_init hi
  · intro i hi
    simp only [ids_cons, ids_append, List.mem_cons, List.mem_append, not_or] at hi
    exact ⟨rfl, initBools_frame hi.2.1⟩

theorem ladder_rel {code0 code1 : List Triple} {c : RelOp} {x0 x1 : Opnd} (sense : Bool) (hc0 : S.Computes code0 cell x0) (hc1 : S.Computes code1 cell x1) (hx0 : x0.tref ∈ ids code0)
    (hj : j.opcode = c.tst (if negated then !sense else sense)) (hja : j.operand0 = .indrRef addr) :
    S.Ladder (code0 ++ code1 ++ (initTrip b ++
      [{ id := t, opcode := c.cmp, operand0 := .tripRef x0.tref, operand1 := .tripRef x1.tref }, j])) cell b
      (.rel t c negated x0 x1) sense addr := by
  intro pre post hn target ht m hm
  generalize hxt : ({ id := t, opcode := c.cmp, operand0 := .tripRef x0.tref, operand1 := .tripRef x1.tref } : Triple) = xt
    at hn ht ⊢
  obtain ⟨m1, hr1, hpc1, hv1, hst1, hev1, hf1⟩ := hc0 pre (code1 ++ (initTrip b ++ [xt, j]) ++ post) (by simpa using hn) m hm
  obtain ⟨m2, hr2, hpc2, hv2, hst2, hev2, hf2⟩ :=
    hc1 (pre ++ code0) ((initTrip b ++ [xt, j]) ++ post) (by simpa using hn) m1 (by simp [hpc1])
  have hcode : pre ++ (code0 ++ code1 ++ (initTrip b ++ [xt, j])) ++ post =
      pre ++ code0 ++ code1 ++ (initTrip b ++ [xt, j]) ++ post := by simp
  rw [hcode] at hn ht ⊢
  rw [← List.append_assoc, ← List.append_assoc] at hr1
  rw [← List.append_assoc] at hr2
  -- the left operand keeps its value while the right one is computed
  have hv0 : m2.vals x0.tref = m1.vals x0.tref := by
    refine (hf2 x0.tref ?_).1
    have := (nodup_sub pre code0 (code1 ++ (initTrip b ++ [xt, j]) ++ post) (by simpa using hn) hx0).2
    simp only [ids_append, List.mem_append, not_or] at this
    exact this.1.1
  have htest : ∀ (l l' : List Triple) (m' : Mach σ V), m'.pc = l.length → m'.vals = m2.vals →
      S.step (l ++ xt :: l') cell m' = some { m' with
        pc := m'.pc + 1, cc := S.cmp c.cmp (S.evalOpnd x0 m.st).1 (S.evalOpnd x1 m1.st).1 } := by
    intro l l' m' hl hvals
    refine step_cmp hl (by rw [← hxt]) ?_ ?_
    · rw [← hxt]
      simp [Mach.opval, hvals, hv0, hv1]
    · rw [← hxt]
      simp [Mach.opval, hvals, hv2]
  have h3 := test_runs b (pre ++ code0 ++ code1) post (by simp [hpc2]; omega) (hj ▸ condJump_tst _ _) htest (hja ▸ ht)
  refine ⟨_, (hr1.trans hr2).trans h3, ?_, ?_, ?_, ?_, ?_⟩
  · simp only [Sem.evalBool, hj, taken_tst, ← hst1]
    generalize c.holds _ = h
    cases h <;> cases negated <;> cases sense <;> simp <;> omega
  · simp [Sem.evalBool, hst2, hst1]
  · simp [Sem.evalBool, hev2, hev1, hst1]
  · intro i hi
    exact initBools_init hi
  · intro i hi
    simp only [ids_append, List.mem_append, not_or] at hi
    obtain ⟨hi01, hib, -⟩ := hi
    obtain ⟨h1, h1'⟩ := hf1 i hi01.1
    obtain ⟨h2, h2'⟩ := hf2 i hi01.2
    exact ⟨h2.trans h1, (initBools_frame hib).trans (h2'.trans h1')⟩

theorem ladder_com {e : BoolExpr} {x : Triple} (sense : Bool) (hl : S.Ladder code cell b e (!sense) addr) (hx : x.opcode = .noop) :
    S.Ladder (code ++ [x]) cell b (.com t e) sense addr := by
  intro pre post hn target ht m hm
  have hcode : pre ++ (code ++ [x]) ++ post = pre ++ code ++ (x :: post) := by simp
  rw [hcode] at hn ht ⊢
  obtain ⟨m1, hr, hpc, hst, hev, hb, hf⟩ := hl pre (x :: post) hn target ht m hm
  have hf' : m.Frame (ids (code ++ [x])) m1 := Frame.trans hf (Frame.refl [] m1) (by simp) (by simp)
  by_cases hs : (S.evalBool e m.st).1 = !sense
  · refine ⟨m1, hr, ?_, hst, hev, hb, hf'⟩
    rw [hpc, if_pos hs, if_pos (by simp [Sem.evalBool, hs])]
  · rw [if_neg hs] at hpc
    have h1 : S.Runs (pre ++ code ++ x :: post) cell m1 { m1 with pc := m1.pc + 1 } := Sem.Runs.single (step_noop (by simp [hpc]) hx)
    refine ⟨_, hr.trans h1, ?_, hst, hev, hb, hf'⟩
    rw [if_neg (by simpa [Sem.evalBool, Bool.not_eq_eq_eq_not] using hs)]
    simp [hpc]
    omega

/-- The truth value of the left operand that decides a logical operator. -/
def decides : BoolOp → Bool
  | .and => false
  | .or => true

theorem evalBool_bool_decided {c : BoolOp} {st : σ} (h : (S.evalBool l st).1 = decides c) :
    S.evalBool (.bool t c negated l r) st = (decides c != negated, (S.evalBool l st).2) := by
  cases c <;> simp [Sem.evalBool, h, decides]

theorem evalBool_bool_open {c : BoolOp} {st : σ} (h : (S.evalBool l st).1 ≠ decides c) :
    S.evalBool (.bool t c negated l r) st = ((S.evalBool r (S.evalBool l st).2.1).1 != negated,
      (S.evalBool r (S.evalBool l st).2.1).2.1, (S.evalBool l st).2.2 ++ (S.evalBool r (S.evalBool l st).2.1).2.2) := by
  cases c <;> simp_all [Sem.evalBool, decides]

theorem ladder_bool {code0 code1 : List Triple} {c : BoolOp}
    {p : Nat} {x : Triple} (sense : Bool) (hl : S.Ladder code0 cell b l (decides c) p)
    (hr : S.Ladder code1 cell none r (if negated then !sense else sense) addr) (hx : x.opcode = .noop) (hxt : x.id = t)
    (hb : ∀ i, b = some i → i ∈ ids code0)
    (hp : if decides c = (if negated then !sense else sense) then p = addr else cell p = .tjmpRef t) :
    S.Ladder (code0 ++ code1 ++ [x]) cell b (.bool t c negated l r) sense addr := by
  intro pre post hn target ht m hm
  have hcode : pre ++ (code0 ++ code1 ++ [x]) ++ post = pre ++ code0 ++ (code1 ++ x :: post) := by simp
  have hcode' : pre ++ code0 ++ (code1 ++ x :: post) = (pre ++ code0) ++ code1 ++ x :: post := by simp
  rw [hcode] at hn ht ⊢
  -- the operator's own triple, now a no-op, is where a jump to the next operand goes
  have hnext : place (pre ++ code0 ++ (code1 ++ x :: post)) cell (.tjmpRef t) = some (pre ++ code0 ++ code1).length := by
    rw [hcode'] at hn ⊢
    exact findIdx_append post (not_mem_pre (ids post) (by simpa [hxt] using hn)) hxt
  have hplace : place (pre ++ code0 ++ (code1 ++ x :: post)) cell (.indrRef p) =
      some (if decides c = (if negated then !sense else sense) then target else (pre ++ code0 ++ code1).length) := by
    by_cases hd : decides c = (if negated then !sense else sense)
    · rw [if_pos hd] at hp ⊢
      rw [hp, ht]
    · rw [if_neg hd] at hp ⊢
      rw [← hnext]
      simp [place, hp]
  have hfall : ∀ m' : Mach σ V, m'.pc = (pre ++ code0 ++ code1).length →
      S.Runs (pre ++ code0 ++ (code1 ++ x :: post)) cell m' { m' with pc := m'.pc + 1 } := by
    intro m' hm'
    rw [hcode']
    exact Sem.Runs.single (step_noop hm' hx)
  obtain ⟨m1, hr1, hpc1, hst1, hev1, hb1, hf1⟩ := hl pre (code1 ++ x :: post) hn _ hplace m hm
  by_cases hdec : (S.evalBool l m.st).1 = decides c
  · -- the left operand decides
    rw [if_pos hdec] at hpc1
    have hf : m.Frame (ids (code0 ++ code1 ++ [x])) m1 := Frame.trans hf1 (Frame.refl [] m1) (by simp) (by simp)
    rw [evalBool_bool_decided hdec]
    by_cases hd : decides c = (if negated then !sense else sense)
    · refine ⟨m1, hr1, ?_, hst1, hev1, hb1, hf⟩
      rw [hpc1, if_pos hd, if_pos]
      cases negated <;> simp_all
    · rw [if_neg hd] at hpc1
      refine ⟨_, hr1.trans (hfall m1 hpc1), ?_, hst1, hev1, hb1, hf⟩
      rw [if_neg (by cases negated <;> simp_all)]
      simp [hpc1]
      omega
  · -- the right operand is evaluated too
    rw [if_neg hdec] at hpc1
    rw [hcode'] at hn ht hr1 hfall ⊢
    obtain ⟨m2, hr2, hpc2, hst2, hev2, -, hf2⟩ := hr (pre ++ code0) (x :: post) hn target ht m1 (by simp [hpc1])
    rw [hst1] at hpc2 hst2 hev2
    have hf : m.Frame (ids (code0 ++ code1 ++ [x])) m2 := by
      refine Frame.trans hf1 hf2 ?_ ?_ <;> intro i hi <;> simp [hi]
    have hb2 : ∀ i, b = some i → m2.bools i = false := by
      intro i hi
      have hni := (nodup_sub pre code0 (code1 ++ x :: post) (by simpa using hn) (hb i hi)).2
      simp only [ids_append, List.mem_append, not_or] at hni
      rw [(hf2 i hni.1).2]
      exact hb1 i hi
    rw [evalBool_bool_open hdec]
    have hev : m2.evaluated = m.evaluated ++ ((S.evalBool l m.st).2.2 ++ (S.evalBool r (S.evalBool l m.st).2.1).2.2) := by
      rw [hev2, hev1, List.append_assoc]
    by_cases hs : (S.evalBool r (S.evalBool l m.st).2.1).1 = (if negated then !sense else sense)
    · refine ⟨m2, hr1.trans hr2, ?_, hst2, hev, hb2, hf⟩
      rw [hpc2, if_pos hs, if_pos]
      cases negated <;> simp_all
    · rw [if_neg hs] at hpc2
      refine ⟨_, (hr1.trans hr2).trans (hfall m2 (by simp [hpc2]; omega)), ?_, hst2, hev, hb2, hf⟩
      rw [if_neg (by cases negated <;> simp_all)]
      simp [hpc2]
      omega

/-- The value of a Boolean expression: `OC_BOOLINIT` clears it on the way, and only a true expression runs `OC_BOOLFINI`. -/
theorem computes_comval {bitrip bftrip : Nat} {e : BoolExpr} {x f : Triple}
    (hl : S.Ladder code cell (some bitrip) e false addr) (ha : cell addr = .tnxtRef bftrip) (hbit : bitrip ∈ ids code)
    (hf : f.opcode = .boolfini) (hfi : f.id = bftrip) (hf0 : f.operand0 = .tripRef bitrip) (hx : x.opcode = .comval)
    (hxi : x.id = t) (hx0 : x.operand0 = .tripRef bitrip) : S.Computes (code ++ [f, x]) cell (.comval t e) := by
  intro pre post hn m hm
  have hcode : pre ++ (code ++ [f, x]) ++ post = pre ++ code ++ (f :: x :: post) := by simp
  have hcode' : pre ++ code ++ (f :: x :: post) = (pre ++ code ++ [f]) ++ x :: post := by simp
  rw [hcode] at hn ⊢
  have hplace : place (pre ++ code ++ (f :: x :: post)) cell (.indrRef addr) = some ((pre ++ code).length + 1) := by
    have hnp : bftrip ∉ ids (pre ++ code) := not_mem_pre (ids (x :: post)) (by simpa [hfi] using hn)
    simp only [place, ha, findIdx_append (x :: post) hnp hfi, Option.map_some]
  obtain ⟨m1, hr1, hpc1, hst1, hev1, hb1, hf1⟩ := hl pre (f :: x :: post) hn _ hplace m hm
  -- either way the machine is at `OC_COMVAL` with the truth value in the temporary
  obtain ⟨m2, hr2, hpc2, hb2, hst2, hev2, hf2⟩ : ∃ m2 : Mach σ V, S.Runs (pre ++ code ++ (f :: x :: post)) cell m1 m2 ∧
      m2.pc = (pre ++ code).length + 1 ∧ m2.bools bitrip = (S.evalBool e m.st).1 ∧ m2.st = m1.st ∧
      m2.evaluated = m1.evaluated ∧ m1.Frame (ids code) m2 := by
    by_cases hv : (S.evalBool e m.st).1 = false
    · rw [if_pos hv] at hpc1
      exact ⟨m1, Relation.ReflTransGen.refl, hpc1, by rw [hv]; exact hb1 _ rfl, rfl, rfl, Frame.refl _ _⟩
    · rw [if_neg hv] at hpc1
      refine ⟨_, Sem.Runs.single (step_boolfini (by simp [hpc1]) hf hf0), by simp [hpc1], ?_, rfl, rfl, ?_⟩
      · simpa using hv
      · intro i hi
        have : i ≠ bitrip := fun h => hi (h ▸ hbit)
        simp [this]
  have h3 : S.Runs (pre ++ code ++ (f :: x :: post)) cell m2
      { m2 with pc := m2.pc + 1, vals := Function.update m2.vals x.id (some (S.ofBool (m2.bools bitrip))) } := by
    rw [hcode']
    exact Sem.Runs.single (step_comval (by simp [hpc2]; omega) hx hx0)
  refine ⟨_, (hr1.trans hr2).trans h3, ?_, ?_, ?_, ?_, ?_⟩
  · simp [hpc2]
    omega
  · simp [Opnd.tref, hxi, hb2, Sem.evalOpnd]
  · simp [Sem.evalOpnd, hst2, hst1]
  · simp [Sem.evalOpnd, hev2, hev1]
  · intro i hi
    simp only [ids_append, ids_cons, ids_nil, List.mem_append, List.mem_cons, List.not_mem_nil, or_false, not_or] at hi
    obtain ⟨h1, h1'⟩ := hf1 i hi.1
    obtain ⟨h2, h2'⟩ := hf2 i hi.1
    have hix : i ≠ x.id := hi.2.2
    simp [hix, h1, h1', h2, h2']

end LadderAux

variable (S : Sem σ V)

/-- What `ex_tail` of an operand comes to: the segment that takes the place of the operand's triples computes it. -/
def ExTailSpec (x : Opnd) : Prop :=
  ∀ (s : Comp) (pre post : List Triple), s.WF → s.chain = pre ++ x.layout ++ post →
    ∃ code, (exTail x s).chain = pre ++ code ++ post ∧ x.tref ∈ ids code ∧ s.cells <+: (exTail x s).cells ∧
      ∀ cell, Agrees s.cells.length (exTail x s).cells cell → S.Computes code cell x

/-- What `bx_tail` of a Boolean expression comes to: the segment that takes the place of its triples is a ladder for it. -/
def BxTailSpec (e : BoolExpr) : Prop :=
  ∀ (b : Option Nat) (sense : Bool) (addr : Nat) (s : Comp) (pre post : List Triple), s.WF →
    s.chain = pre ++ e.layoutWith (initTrip b) ++ post →
    ∃ code, (bxTail e sense addr s).chain = pre ++ code ++ post ∧ (∀ i, b = some i → i ∈ ids code) ∧
      s.cells <+: (bxTail e sense addr s).cells ∧
      ∀ cell, Agrees s.cells.length (bxTail e sense addr s).cells cell → S.Ladder code cell b e sense addr

namespace LadderAux

variable {S}

theorem nodup_of_chain {s : Comp} {l : List Triple} (h : s.WF) (hc : s.chain = l) : (ids l).Nodup := hc ▸ h.nodup

theorem exTailSpec_leaf (t : Nat) (c : Opcode) (hc : c.exprleaf = true) : ExTailSpec S (.leaf t c hc) := by
  intro s pre post _ hchain
  refine ⟨[{ id := t, opcode := c }], ?_, by simp [Opnd.tref], ?_, fun cell _ => computes_leaf t c hc⟩
  · simpa only [exTail, Opnd.layout] using hchain
  · simp only [exTail]
    exact List.prefix_refl _

theorem exTailSpec_comval (t : Nat) {e : BoolExpr} (ih : BxTailSpec S e) : ExTailSpec S (.comval t e) := by
  intro s pre post hw hchain
  obtain ⟨bi, hbi⟩ : ∃ bi : Triple, bi = { id := s.nextId, opcode := .boolinit } := ⟨_, rfl⟩
  obtain ⟨f, hf⟩ : ∃ f : Triple, f = { id := s.nextId + 1, opcode := .boolfini, operand0 := .tripRef s.nextId } := ⟨_, rfl⟩
  obtain ⟨cv, hcv⟩ : ∃ cv : Triple, cv = { id := t, opcode := .comval, operand0 := .tripRef e.tref } := ⟨_, rfl⟩
  have hchain' : s.chain = pre ++ e.layout ++ (cv :: post) := by rw [hchain, Opnd.layout, hcv]; simp
  -- the three edits around the expression
  have h1 : dqrins e.leftmost bi s.chain = pre ++ e.layoutWith [bi] ++ (cv :: post) := by
    rw [hchain', dqrins_leftmost (nodup_of_chain hw hchain')]
  have hw1 : Comp.WF { s with chain := dqrins e.leftmost bi s.chain, nextId := s.nextId + 1 } := hw.dqrins _ bi (by rw [hbi])
  have h2 : dqins e.tref f (dqrins e.leftmost bi s.chain) = pre ++ e.layoutWith [bi] ++ (f :: cv :: post) := by
    obtain ⟨l, x, hl, hx⟩ := layoutWith_last [bi] e
    have hn := nodup_of_chain hw1 h1
    rw [h1]
    rw [hl] at hn ⊢
    have hne : e.tref ∉ ids (pre ++ l) := not_mem_pre (ids (cv :: post)) (by simpa [hx] using hn)
    simpa using dqins_append f (cv :: post) hne hx
  have hw2 := hw1.dqins e.tref f (by rw [hf])
  have h3 : setTriple t (fun x => { x with operand0 := .tripRef s.nextId }) (dqins e.tref f (dqrins e.leftmost bi s.chain)) =
      pre ++ e.layoutWith [bi] ++ (f :: { cv with operand0 := .tripRef s.nextId } :: post) := by
    have hn := nodup_of_chain hw2 h2
    have hct : cv.id = t := by rw [hcv]
    have hnt : t ∉ ids (pre ++ e.layoutWith [bi] ++ [f]) := not_mem_pre (ids post) (by simpa [hct] using hn)
    rw [h2]
    simpa using setTriple_append (fun x => { x with operand0 := .tripRef s.nextId }) post hnt hct
  have hw3 := (hw2.update t (f := fun x => { x with operand0 := .tripRef s.nextId }) fun _ => rfl).newCell .noRef
  have hinit : [bi] = initTrip (some s.nextId) := by rw [hbi]; rfl
  rw [hinit] at h3
  obtain ⟨code, hcode, hbit, hcells, hlad⟩ := ih (some s.nextId) false s.cells.length _ pre _ hw3 h3
  obtain ⟨out, hout⟩ : ∃ out, out = bxTail e false s.cells.length (Comp.newCell (Comp.update
      { s with chain := dqins e.tref f (dqrins e.leftmost bi s.chain), nextId := s.nextId + 1 + 1 } t
      (fun x => { x with operand0 := .tripRef s.nextId })) .noRef) := ⟨_, rfl⟩
  have hex : exTail (.comval t e) s = { out with cells := out.cells.set s.cells.length (.tnxtRef (s.nextId + 1)) } := by
    rw [hout, hbi, hf]
    simp only [exTail]
    rfl
  rw [hex]
  have hlen : s.cells.length < out.cells.length := by
    have := hcells.length_le
    rw [hout]
    refine Nat.lt_of_lt_of_le ?_ this
    simp [Comp.newCell, Comp.update]
  refine ⟨code ++ [f, { cv with operand0 := .tripRef s.nextId }], ?_, ?_, ?_, ?_⟩
  · simpa [hout] using hcode
  · simp [Opnd.tref, hcv]
  · have hpre : s.cells ++ [.noRef] <+: out.cells := by rw [hout]; exact hcells
    obtain ⟨rest, hrest⟩ := hpre
    refine ⟨.tnxtRef (s.nextId + 1) :: rest, ?_⟩
    simp [← hrest]
  · intro cell hag
    have ha : cell s.cells.length = .tnxtRef (s.nextId + 1) := hag _ _ (Nat.le_refl _) (by simp [hlen])
    refine computes_comval (hlad cell ?_) ha (hbit _ rfl) (by rw [hf]) (by rw [hf]) (by rw [hf]) (by simp [hcv]) (by simp [hcv])
      rfl
    intro i o hi ho
    refine hag i o ?_ ?_
    · simp [Comp.newCell, Comp.update] at hi
      omega
    · have hne : s.cells.length ≠ i := by simp [Comp.newCell, Comp.update] at hi; omega
      rw [List.getElem?_set_ne hne, hout]
      exact ho

theorem mem_initTrip {b : Option Nat} {i : Nat} (h : b = some i) (l l' : List Triple) : i ∈ ids (l ++ (initTrip b ++ l')) := by
  simp [h, initTrip]

theorem bxTailSpec_cobool (t : Nat) {x : Opnd} (ih : ExTailSpec S x) : BxTailSpec S (.cobool t x) := by
  intro b sense addr s pre post hw hchain
  obtain ⟨cb, hcb⟩ : ∃ cb : Triple, cb = { id := t, opcode := .cobool, operand0 := .tripRef x.tref } := ⟨_, rfl⟩
  have hchain' : s.chain = pre ++ x.layout ++ (initTrip b ++ cb :: post) := by rw [hchain, BoolExpr.layoutWith, hcb]; simp
  obtain ⟨code, hcode, -, hcells, hcomp⟩ := ih s pre _ hw hchain'
  have hn := nodup_of_chain (exTail_wf x s hw) hcode
  have hct : cb.id = t := by rw [hcb]
  have hnt : t ∉ ids (pre ++ code ++ initTrip b) := not_mem_pre (ids post) (by simpa [hct] using hn)
  by_cases hx : ∃ g h, x = .leaf g .gettruth h
  · -- the jump itself tests `$TEST`
    obtain ⟨g, hg, rfl⟩ := hx
    obtain ⟨j, hj⟩ : ∃ j : Triple, j = { cb with opcode := if sense then .jmptset else .jmptclr, operand0 := .indrRef addr } := ⟨_, rfl⟩
    obtain ⟨x0, hx0⟩ : ∃ x0 : Triple, x0 = { id := g, opcode := .gettruth } := ⟨_, rfl⟩
    have hl : s.chain = pre ++ x0 :: (initTrip b ++ cb :: post) := by rw [hchain', Opnd.layout, hx0]; simp
    have hgt : g ∉ ids pre := not_mem_pre (ids (initTrip b ++ cb :: post)) (by simpa [hl, hx0] using nodup_of_chain hw hl)
    refine ⟨{ id := g, opcode := .noop } :: (initTrip b ++ [j]), ?_, fun i hi => ?_, ?_, fun cell _ => ?_⟩
    · simp only [bxTail, exTail, Comp.noop, Comp.update, hl]
      rw [setTriple_append _ _ hgt (by rw [hx0])]
      have hnt' : t ∉ ids (pre ++ { id := g, opcode := .noop } :: initTrip b) := by
        have := nodup_of_chain hw hl
        exact not_mem_pre (ids post) (by simpa [hct, hx0] using this)
      have := setTriple_append
        (fun y => { y with opcode := if sense then .jmptset else .jmptclr, operand0 := .indrRef addr }) post hnt' hct
      rw [hj]
      simpa [hx0] using this
    · simp [hi, initTrip]
    · simp only [bxTail, exTail, Comp.noop, Comp.update]
      exact List.prefix_refl _
    · exact ladder_gettruth sense (by rw [hj, hcb]) (by rw [hj]) (by rw [hj])
  · have hx' : ∀ g h, x ≠ .leaf g .gettruth h := fun g h hxe => hx ⟨g, h, hxe⟩
    have hbx : bxTail (.cobool t x) sense addr s = (exTail x s).insJump t (if sense then .jmpneq else .jmpequ) addr := by
      cases x with
      | leaf g c h => cases c <;> simp_all [bxTail]
      | comval u e => simp [bxTail]
    rw [hbx]
    obtain ⟨j, hj⟩ : ∃ j : Triple, j =
      { id := (exTail x s).nextId, opcode := if sense then .jmpneq else .jmpequ, operand0 := .indrRef addr } := ⟨_, rfl⟩
    refine ⟨code ++ (initTrip b ++ [cb, j]), ?_, fun i hi => mem_initTrip hi _ _, hcells, fun cell hag => ?_⟩
    · simp only [Comp.insJump, hcode]
      have := dqins_append j post hnt hct
      rw [← hj]
      simpa using this
    · rw [hcb]
      exact ladder_cobool sense hx' (hcomp cell hag) (by rw [hj]) (by rw [hj])

theorem bxTailSpec_com (t : Nat) {e : BoolExpr} (ih : BxTailSpec S e) : BxTailSpec S (.com t e) := by
  intro b sense addr s pre post hw hchain
  obtain ⟨x, hx⟩ : ∃ x : Triple, x = { id := t, opcode := .com, operand0 := .tripRef e.tref } := ⟨_, rfl⟩
  have hchain' : s.chain = pre ++ e.layoutWith (initTrip b) ++ (x :: post) := by rw [hchain, BoolExpr.layoutWith, hx]; simp
  obtain ⟨code, hcode, hb, hcells, hlad⟩ := ih b (!sense) addr s pre _ hw hchain'
  have hn := nodup_of_chain (bxTail_wf e _ addr s hw) hcode
  have hxt : x.id = t := by rw [hx]
  have hnt : t ∉ ids (pre ++ code) := not_mem_pre (ids post) (by simpa [hxt] using hn)
  simp only [bxTail]
  refine ⟨code ++ [{ id := t, opcode := .noop }], ?_, fun i hi => by simp [hb i hi], hcells, fun cell hag =>
    ladder_com sense (hlad cell hag) rfl⟩
  simp only [Comp.noop, Comp.update, hcode]
  rw [setTriple_append _ _ hnt hxt]
  simp [hxt]

theorem bxTailSpec_rel (t : Nat) (c : RelOp) (negated : Bool) {x0 x1 : Opnd} (ih0 : ExTailSpec S x0) (ih1 : ExTailSpec S x1) :
    BxTailSpec S (.rel t c negated x0 x1) := by
  intro b sense addr s pre post hw hchain
  obtain ⟨x, hx⟩ : ∃ x : Triple,
    x = { id := t, opcode := c.opcode negated, operand0 := .tripRef x0.tref, operand1 := .tripRef x1.tref } := ⟨_, rfl⟩
  obtain ⟨j, hj⟩ : ∃ j : Triple,
    j = { id := s.nextId, opcode := c.tst (if negated then !sense else sense), operand0 := .indrRef addr } := ⟨_, rfl⟩
  have hchain' : s.chain = pre ++ x0.layout ++ x1.layout ++ initTrip b ++ (x :: post) := by
    rw [hchain, BoolExpr.layoutWith, hx]
    simp
  have hxt : x.id = t := by rw [hx]
  have hnt : t ∉ ids (pre ++ x0.layout ++ x1.layout ++ initTrip b) :=
    not_mem_pre (ids post) (by simpa [hxt] using nodup_of_chain hw hchain')
  -- the comparison and its jump are in place before the operands are worked on
  obtain ⟨s1, hs1⟩ : ∃ s1, s1 = (s.insJump t (c.tst (if negated then !sense else sense)) addr).update t
    (fun y => { y with opcode := c.cmp }) := ⟨_, rfl⟩
  have hw1 : s1.WF := by rw [hs1]; exact (hw.insJump t _ addr).update t fun _ => rfl
  have hchain1 : s1.chain = pre ++ x0.layout ++ (x1.layout ++ (initTrip b ++ { x with opcode := c.cmp } :: j :: post)) := by
    rw [hs1]
    simp only [Comp.insJump, Comp.update, hchain', ← hj]
    rw [dqins_append j post hnt hxt, setTriple_append _ _ hnt hxt]
    simp
  obtain ⟨code0, hcode0, hx0, hcells0, hcomp0⟩ := ih0 s1 pre _ hw1 hchain1
  obtain ⟨code1, hcode1, -, hcells1, hcomp1⟩ := ih1 (exTail x0 s1) (pre ++ code0) _ (exTail_wf x0 s1 hw1)
    (by rw [hcode0, ← List.append_assoc (pre ++ code0)])
  have hbx : bxTail (.rel t c negated x0 x1) sense addr s = exTail x1 (exTail x0 s1) := by
    rw [hs1]
    simp only [bxTail]
  have hsc : s1.cells = s.cells := by rw [hs1]; rfl
  rw [hbx]
  refine ⟨code0 ++ code1 ++ (initTrip b ++ [{ x with opcode := c.cmp }, j]), ?_, fun i hi => mem_initTrip hi _ _,
    hsc ▸ hcells0.trans hcells1, fun cell hag => ?_⟩
  · rw [hcode1]
    simp
  · rw [hx]
    refine ladder_rel sense (hcomp0 cell ?_) (hcomp1 cell ?_) hx0 (by rw [hj]) (by rw [hj])
    · exact hag.mono (Nat.le_of_eq (by rw [hsc])) hcells1
    · exact hag.mono (by rw [← hsc]; exact hcells0.length_le) (List.prefix_refl _)

theorem bxTailSpec_bool (t : Nat) (c : BoolOp) (negated : Bool) {l r : BoolExpr} (ihl : BxTailSpec S l) (ihr : BxTailSpec S r) :
    BxTailSpec S (.bool t c negated l r) := by
  intro b sense addr s pre post hw hchain
  obtain ⟨x, hx⟩ : ∃ x : Triple,
    x = { id := t, opcode := c.opcode negated, operand0 := .tripRef l.tref, operand1 := .tripRef r.tref } := ⟨_, rfl⟩
  obtain ⟨sense', hsense⟩ : ∃ sense', sense' = if negated then !sense else sense := ⟨_, rfl⟩
  obtain ⟨p, hp⟩ : ∃ p, p = if decides c = sense' then addr else s.cells.length := ⟨_, rfl⟩
  obtain ⟨s1, hs1⟩ : ∃ s1, s1 = if decides c = sense' then s else s.newCell (.tjmpRef t) := ⟨_, rfl⟩
  have hbx : bxTail (.bool t c negated l r) sense addr s = (bxTail r sense' addr (bxTail l (decides c) p s1)).noop t := by
    rw [hp, hs1]
    cases c <;> simp only [bxTail, bxBoolop, ← hsense] <;> cases sense' <;> simp [decides]
  have hw1 : s1.WF := by
    rw [hs1]
    split
    · exact hw
    · exact hw.newCell _
  have hc1 : s1.chain = s.chain := by
    rw [hs1]
    split <;> rfl
  have hcells1 : s.cells <+: s1.cells := by
    rw [hs1]
    split
    · exact List.prefix_refl _
    · exact List.prefix_append _ _
  have hchain1 : s1.chain = pre ++ l.layoutWith (initTrip b) ++ (r.layout ++ x :: post) := by
    rw [hc1, hchain, BoolExpr.layoutWith, hx]
    simp
  obtain ⟨code0, hcode0, hb, hcells0, hlad0⟩ := ihl b (decides c) p s1 pre _ hw1 hchain1
  have hwl := bxTail_wf l (decides c) p s1 hw1
  obtain ⟨code1, hcode1, -, hcellsr, hlad1⟩ := ihr none sense' addr (bxTail l (decides c) p s1) (pre ++ code0) (x :: post) hwl
    (by rw [hcode0, initTrip, layoutWith_nil]; simp)
  have hn := nodup_of_chain (bxTail_wf r sense' addr _ hwl) hcode1
  have hxt : x.id = t := by rw [hx]
  have hnt : t ∉ ids (pre ++ code0 ++ code1) := not_mem_pre (ids post) (by simpa [hxt] using hn)
  rw [hbx]
  refine ⟨code0 ++ code1 ++ [{ id := t, opcode := .noop }], ?_, fun i hi => by simp [hb i hi],
    hcells1.trans (hcells0.trans hcellsr), fun cell hag => ?_⟩
  · simp only [Comp.noop, Comp.update, hcode1]
    rw [setTriple_append _ _ hnt hxt]
    simp [hxt]
  · refine ladder_bool sense (hlad0 cell (hag.mono hcells1.length_le hcellsr))
      (by rw [← hsense]; exact hlad1 cell (hag.mono (hcells1.trans hcells0).length_le (List.prefix_refl _))) rfl rfl hb ?_
    rw [← hsense, hp]
    split
    · rfl
    · rename_i hd
      have hs1c : s1.cells = s.cells ++ [.tjmpRef t] := by rw [hs1, if_neg hd]; rfl
      obtain ⟨rest, hrest⟩ := hcells0.trans hcellsr
      refine hag _ _ (Nat.le_refl _) ?_
      simp [Comp.noop, Comp.update, ← hrest, hs1c]

end LadderAux

mutual

theorem exTail_spec (x : Opnd) : ExTailSpec S x := by
  cases x with
  | leaf t c hc => exact exTailSpec_leaf t c hc
  | comval t e => exact exTailSpec_comval t (bxTail_spec e)

theorem bxTail_spec (e : BoolExpr) : BxTailSpec S e := by
  cases e with
  | cobool t x => exact bxTailSpec_cobool t (exTail_spec x)
  | com t e => exact bxTailSpec_com t (bxTail_spec e)
  | rel t c negated a b => exact bxTailSpec_rel t c negated (exTail_spec a) (exTail_spec b)
  | bool t c negated l r => exact bxTailSpec_bool t c negated (bxTail_spec l) (bxTail_spec r)

end

end Gtm
