import Gtm.Lemmas.PieceSet

/-!
# Pieces with a cache are pieces without one

Any calls of the four functions, with new strings and garbage collections between them: a retrieval returns the piece or the range of
pieces of the source, and a set the source with the range replaced, or raises an error where that would be too long for a string.
-/

namespace Gtm

namespace ZPiece

/-- A call. -/
inductive PieceCall where
  | fnzp1 (src : StrMval) (delim : UInt32) (trgpcidx : Int) (ldst : StrMval)
  | fnzpiece (src : StrMval) (del : Mstr) (first last : Int) (dst : StrMval)
  | setzp1 (g : Option Gcol) (src : Option StrMval) (delim : UInt32) (expr : Mstr) (ind : Int)
  | setzpiece (g : Option Gcol) (src : Option StrMval) (del expr : Mstr) (first last : Int) (dst : StrMval)

/-- A retrieval raises no error. -/
def FnzOut.toSet (out : FnzOut) : SetOut := ⟨out.st, .ok out.dst⟩

/-- What the call does. -/
def PieceCall.exec (st : PieceSt) : PieceCall → SetOut
  | .fnzp1 src delim trgpcidx ldst => (opFnzp1 st src delim trgpcidx ldst).toSet
  | .fnzpiece src del first last dst => (opFnzpiece st src del first last dst).toSet
  | .setzp1 g src delim expr ind => opSetzp1 st g src delim expr ind
  | .setzpiece g src del expr first last dst => opSetzpiece st g src del expr first last dst

/-- What it should come to, by splitting and joining the source. -/
def PieceCall.value (st : PieceSt) : PieceCall → List UInt8
  | .fnzp1 src delim trgpcidx _ => pieceOf delim.toUInt8 (st.str src.str) trgpcidx
  | .fnzpiece src del first last _ => rangeOf (st.str del) (st.str src.str) first last
  | .setzp1 _ src delim expr ind => setOf [delim.toUInt8] (st.srcBytes src) (st.str expr) ind ind
  | .setzpiece _ src del expr first last _ => setOf (st.str del) (st.srcBytes src) (st.str expr) first last

/-- The strings are in the memory and are kept, and the compiled code jumps over no set. -/
def PieceCall.Valid (st : PieceSt) : PieceCall → Prop
  | .fnzp1 src _ _ _ => st.Holds src.str
  | .fnzpiece src del _ _ _ => st.Holds src.str ∧ st.Holds del
  | .setzp1 g src _ expr ind => SrcOk st g src ∧ st.Holds expr ∧ Kept st g expr ∧ 0 < ind
  | .setzpiece g src del expr first last _ =>
    SrcOk st g src ∧ (st.Holds del ∧ Kept st g del) ∧ (st.Holds expr ∧ Kept st g expr) ∧ first ≤ last ∧ 0 < last

/-- The memory at the start, and an empty cache. -/
def pieceInit (mem : List UInt8) : PieceSt := ⟨mem, fun _ => ⟨⟨0, 0⟩, 0, 0, false, fun _ => 0⟩, 0⟩

/-- What calls can come to, and new strings and garbage collections between them. -/
inductive Reached : PieceSt → Prop
  | init (mem : List UInt8) : Reached (pieceInit mem)
  | push {st : PieceSt} (h : Reached st) (bytes : List UInt8) : Reached (st.push bytes)
  | gcol {st : PieceSt} (h : Reached st) (g : Gcol) : Reached (st.gcol g)
  | call {st : PieceSt} (h : Reached st) {c : PieceCall} (hc : c.Valid st) : Reached (c.exec st).st

section Calls

variable {st : PieceSt}

theorem FnzOut.Is.toSet {out : FnzOut} {bytes : List UInt8} (h : out.Is st bytes) : out.toSet.Is bytes := ⟨h.cached, h.str_eq, h.holds⟩

theorem setOf_single {c : UInt8} {s e : List UInt8} {ind : Int} (hind : 0 < ind) :
    setOf [c] s e ind ind = Pieces.setRange [c] s e (ind.toNat - 1) ind.toNat := by
  rw [setOf, if_neg single_ne_nil, show (ind - 1).toNat = ind.toNat - 1 by omega]

/-- With a right cache a call comes to the value. -/
theorem exec_is (h : Cached st) {c : PieceCall} (hc : c.Valid st) : (c.exec st).Is (c.value st) := by
  cases c with
  | fnzp1 src delim trgpcidx ldst => exact (opFnzp1_is h hc delim trgpcidx ldst).toSet
  | fnzpiece src del first last dst => exact (opFnzpiece_is h hc.1 del first last).toSet
  | setzp1 g src delim expr ind =>
    obtain ⟨hsrc, hexpr, hkept, hind⟩ := hc
    rw [PieceCall.value, setOf_single hind]
    exact opSetzp1_spec h hsrc hexpr hkept hind
  | setzpiece g src del expr first last dst =>
    obtain ⟨hsrc, ⟨hdel, hdel'⟩, ⟨hexpr, hexpr'⟩, hle, hlast⟩ := hc
    exact opSetzpiece_is h hsrc hdel hdel' hexpr hexpr' hle hlast

theorem Reached.cached (h : Reached st) : Cached st := by
  induction h with
  | init mem => exact fun i hlen => absurd rfl hlen
  | push _ bytes ih => exact ih.push bytes
  | gcol _ g ih => exact ih.ensure (some g)
  | call _ hc ih => exact (exec_is ih hc).1

/-- The bytes of the destination. -/
def SetOut.bytes (out : SetOut) : Except PieceErr (List UInt8) := out.dst.map fun dst => out.st.str dst.str

/-- Two sets of the same string come to the same, if both raise an error or none. -/
theorem SetOut.Is.bytes_eq {out out' : SetOut} {bytes : List UInt8} (h : out.Is bytes) (h' : out'.Is bytes)
    (hok : out.dst.isOk = out'.dst.isOk) : out.bytes = out'.bytes := by
  obtain ⟨-, h⟩ := h
  obtain ⟨-, h'⟩ := h'
  rw [SetOut.bytes, SetOut.bytes]
  cases hdst : out.dst with
  | error e =>
    cases hdst' : out'.dst with
    | error e' => rfl
    | ok dst' =>
      rw [hdst, hdst'] at hok
      cases hok
  | ok dst =>
    cases hdst' : out'.dst with
    | error e' =>
      rw [hdst, hdst'] at hok
      cases hok
    | ok dst' =>
      rw [hdst] at h
      rw [hdst'] at h'
      exact congrArg Except.ok (h.1.trans h'.1.symm)

/-- For one piece and a delimiter of one byte, `op_setzpiece` comes to what `op_setzp1` comes to. -/
theorem opSetzpiece_eq (h : Cached st) {g : Option Gcol} {src : Option StrMval} {del expr : Mstr} {ind : Int} {b : UInt8}
    (hdel : st.Holds del) (hdel' : Kept st g del) (hexpr : st.Holds expr) (hexpr' : Kept st g expr) (hind : 0 < ind)
    (hb : st.str del = [b]) (dst : StrMval) :
    (opSetzpiece st g src del expr ind ind dst).bytes = (opSetzp1 st g src (unicharVal b) expr ind).bytes := by
  have hone : ind - ((ind - 1).toNat : Int) = 1 := by omega
  cases src with
  | some src =>
    simp only [opSetzpiece, hb, hone]
    rfl
  | none =>
    have hsrc : SrcOk st g none := fun _ h => by cases h
    have hbyte : (unicharVal b).toUInt8 = b := by simp [unicharVal]
    have hpiece : (opSetzpiece st g none del expr ind ind dst).Is (setOf [b] (st.srcBytes none) (st.str expr) ind ind) := by
      rw [← hb]
      exact opSetzpiece_is h hsrc hdel hdel' hexpr hexpr' (Int.le_refl _) hind
    have hone' : (opSetzp1 st g none (unicharVal b) expr ind).Is (setOf [b] (st.srcBytes none) (st.str expr) ind ind) := by
      rw [setOf_single hind]
      have hset : (opSetzp1 st g none (unicharVal b) expr ind).Is (Pieces.setRange [(unicharVal b).toUInt8] (st.srcBytes none)
          (st.str expr) (ind.toNat - 1) ind.toNat) := opSetzp1_spec h hsrc hexpr hexpr' hind
      rwa [hbyte] at hset
    refine hpiece.bytes_eq hone' ?_
    have hlen : del.len = 1 := by rw [← hdel, hb, List.length_singleton]
    simp only [opSetzpiece, opSetzp1, hb, setzpieceBuild, setzp1Build, hlen, Option.elim_none, Nat.one_mul, Nat.zero_add, Nat.add_zero]
    split <;> rfl

/-- After any calls, a call comes to what splitting and joining the source comes to, unless that is too long for a string; and
`op_setzpiece` for one piece and a delimiter of one byte to what `op_setzp1` comes to. -/
theorem calls_value (h : Reached st) :
    (∀ c : PieceCall, c.Valid st →
      match (c.exec st).dst with
      | .ok dst => (c.exec st).st.str dst.str = c.value st ∧ (c.exec st).st.Holds dst.str
      | .error _ => maxStrlen < (c.value st).length) ∧
    ∀ (g : Option Gcol) (src : Option StrMval) (del expr : Mstr) (ind : Int) (dst : StrMval) (b : UInt8),
      (PieceCall.setzpiece g src del expr ind ind dst).Valid st → st.str del = [b] →
        (opSetzpiece st g src del expr ind ind dst).bytes = (opSetzp1 st g src (unicharVal b) expr ind).bytes := by
  refine ⟨fun c hc => (exec_is h.cached hc).2, fun g src del expr ind dst b hc hb => ?_⟩
  obtain ⟨-, ⟨hdel, hdel'⟩, ⟨hexpr, hexpr'⟩, -, hind⟩ := hc
  exact opSetzpiece_eq h.cached hdel hdel' hexpr hexpr' hind hb dst

/-- The strings `a,b`, `X` and `,`. -/
def sample : PieceSt := pieceInit [97, 44, 98, 88, 44]

/-- The second piece of `a,b` set to `X`. -/
def sampleCall : PieceCall := .setzp1 none (some ⟨⟨0, 3⟩, 0⟩) 44 ⟨3, 1⟩ 2

theorem calls_value_sample :
    (match (sampleCall.exec sample).dst with
      | .ok dst => (sampleCall.exec sample).st.str dst.str = sampleCall.value sample ∧ (sampleCall.exec sample).st.Holds dst.str
      | .error _ => maxStrlen < (sampleCall.value sample).length) ∧
    (opSetzpiece sample none (some ⟨⟨0, 3⟩, 0⟩) ⟨4, 1⟩ ⟨3, 1⟩ 2 2 ⟨⟨0, 0⟩, 0⟩).bytes =
      (opSetzp1 sample none (some ⟨⟨0, 3⟩, 0⟩) (unicharVal 44) ⟨3, 1⟩ 2).bytes := by
  have hsrc : SrcOk sample none (some ⟨⟨0, 3⟩, 0⟩) := by
    intro m hm
    obtain rfl := Option.some.inj hm
    exact ⟨rfl, rfl⟩
  have hinit : Reached sample := .init _
  exact ⟨(calls_value hinit).1 sampleCall ⟨hsrc, rfl, rfl, by decide⟩,
    (calls_value hinit).2 none _ _ _ 2 _ 44 ⟨hsrc, ⟨rfl, rfl⟩, ⟨rfl, rfl⟩, by decide, by decide⟩ rfl⟩

/-- A piece of an undefined source that has too many delimiters in front of it: there is no result. -/
theorem calls_maxstrlen :
    Reached (pieceInit []) ∧ (PieceCall.setzp1 none none 44 ⟨0, 0⟩ 1048578).Valid (pieceInit []) ∧
      ((PieceCall.setzp1 none none 44 ⟨0, 0⟩ 1048578).exec (pieceInit [])).bytes = .error .maxstrlen :=
  ⟨.init [], ⟨nofun, rfl, rfl, by decide⟩, rfl⟩

end Calls

end ZPiece

end Gtm
