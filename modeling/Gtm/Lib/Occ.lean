import Mathlib

/-!
# Optimistic transactions

Transactions over a store `B → V` as programs that read one cell after the other, each read depending on the values read before,
and end with a list of writes. A transaction that read values at different times and whose reads are all still current when it
writes has done what it would have done alone at that time; so a history of such transactions is the serial one.
-/

namespace Occ

variable {B V : Type*} [DecidableEq B]

/-- A transaction: reads, and at the end the writes they led to. -/
inductive Prog (B V : Type*) where
  | read (b : B) (next : V → Prog B V)
  | done (ws : List (B × V))

/-- The store after a list of writes. -/
def write (db : B → V) (ws : List (B × V)) : B → V := ws.foldl (fun db w => Function.update db w.1 w.2) db

/-- What a transaction reads and writes when it runs alone on a store. -/
def Prog.run (db : B → V) : Prog B V → List (B × V) × List (B × V)
  | .read b next => ((b, db b) :: ((next (db b)).run db).1, ((next (db b)).run db).2)
  | .done ws => ([], ws)

/-- What is left of a transaction after the given reads; `none` when these are not its reads. -/
def Prog.after : Prog B V → List (B × V) → Option (Prog B V)
  | p, [] => some p
  | .read b next, (c, v) :: rs => if b = c then (next v).after rs else none
  | .done _, _ :: _ => none

/-- One serial execution of a list of transactions: what each of them reads, and the store they leave. -/
def serial (db : B → V) : List (Prog B V) → List (List (B × V)) × (B → V)
  | [] => ([], db)
  | p :: ps =>
    let r := p.run db
    let rest := serial (write db r.2) ps
    (r.1 :: rest.1, rest.2)

@[simp] theorem Prog.after_nil (p : Prog B V) : p.after [] = some p := by
  cases p <;> rfl

theorem Prog.after_concat (p : Prog B V) (rs : List (B × V)) (b : B) (next : V → Prog B V) (v : V)
    (h : p.after rs = some (.read b next)) : p.after (rs ++ [(b, v)]) = some (next v) := by
  induction rs generalizing p with
  | nil =>
    obtain rfl : p = .read b next := by simpa using h
    simp [Prog.after]
  | cons r rs ih =>
    cases p with
    | done ws => simp [Prog.after] at h
    | read c k =>
      simp only [Prog.after, List.cons_append] at h ⊢
      split at h
      · rename_i hc
        rw [if_pos hc]
        exact ih _ h
      · simp at h

/-- A transaction whose reads are all current did what it does alone. -/
theorem Prog.run_of_current {p : Prog B V} {rs : List (B × V)} {ws : List (B × V)} {db : B → V}
    (h : p.after rs = some (.done ws)) (hcur : ∀ r ∈ rs, db r.1 = r.2) : p.run db = (rs, ws) := by
  induction rs generalizing p with
  | nil =>
    obtain rfl : p = .done ws := by simpa using h
    rfl
  | cons r rs ih =>
    cases p with
    | done ws' => simp [Prog.after] at h
    | read b next =>
      simp only [Prog.after] at h
      split at h
      · rename_i hb
        have hv : db b = r.2 := by
          rw [hb]
          exact hcur r (by simp)
        have hrec := ih h fun x hx => hcur x (by simp [hx])
        rw [Prog.run, hv, hrec]
        refine Prod.ext ?_ rfl
        simp [hb]
      · simp at h

/-- A serial history goes on with one more transaction. -/
theorem serial_concat (db : B → V) (ps : List (Prog B V)) (p : Prog B V) : serial db (ps ++ [p]) =
      ((serial db ps).1 ++ [(p.run (serial db ps).2).1], write (serial db ps).2 (p.run (serial db ps).2).2) := by
  induction ps generalizing db with
  | nil => rfl
  | cons q ps ih =>
    rw [List.cons_append, serial, ih]
    rfl

/-- A write leaves the cells it does not name. -/
theorem write_of_not_mem (db : B → V) (ws : List (B × V)) (b : B) (h : b ∉ ws.map Prod.fst) : write db ws b = db b := by
  unfold write
  induction ws generalizing db with
  | nil => rfl
  | cons w ws ih =>
    rw [List.map_cons, List.mem_cons, not_or] at h
    rw [List.foldl_cons, ih _ h.2, Function.update_of_ne h.1]

end Occ
