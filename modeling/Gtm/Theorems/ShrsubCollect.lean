import Gtm.Mlk.Shrsub

/-!
# Collecting the abandoned subscripts

The lock space holds a list of subscripts, each with the node it belongs to or abandoned. Creating a node appends one and deleting a
node abandons one; `mlk_shrsub_garbage_collect` leaves the list without the abandoned ones.
-/

namespace Gtm

open ByteWords

/-- A subscript of the lock space: the node it belongs to, unless it is abandoned, and its bytes. -/
structure Shrsub where
  owner : Option Nat
  data : List UInt8
deriving DecidableEq, Repr

namespace Shrsub

/-- The bytes of its entry. -/
def size (s : Shrsub) : Nat := roundUp (9 + s.data.length) 8

/-- Its node is there. -/
def live (s : Shrsub) : Bool := s.owner.isSome

/-- The nodes of the subscripts that have one. -/
def nodes (subs : List Shrsub) : List Nat := subs.filterMap owner

/-- The bytes of their entries. -/
def sizes (subs : List Shrsub) : Nat := (subs.map size).sum

/-- The entry at `p` is that of the subscript: the node and the entry point to each other. -/
structure At (mem : Nat → UInt8) (p : Nat) (s : Shrsub) : Prop where
  length : (mem (p + 8)).toNat = s.data.length
  data : ∀ i < s.data.length, mem (p + 9 + i) = s.data.getD i 0
  abandoned : s.owner = none → getWord mem p = 0
  linked : ∀ b, s.owner = some b → getWord mem p ≠ 0 ∧ r2a mem p = b ∧ r2a mem b = p

/-- The entries from `p` to `f` are those of the subscripts, one behind the other. -/
def AllAt (mem : Nat → UInt8) : Nat → Nat → List Shrsub → Prop
  | p, f, [] => p = f
  | p, f, s :: subs => At mem p s ∧ AllAt mem (p + s.size) f subs

end Shrsub

open Shrsub

/-- The lock space holds the subscripts. The nodes are outside of the area and apart from each other. -/
structure MlkSubs.Holds (r : MlkSubs) (subs : List Shrsub) : Prop where
  entries : AllAt r.mem r.subbase r.subfree subs
  top : r.subfree ≤ r.subtop
  bound : r.subtop ≤ 2 ^ 64
  outside : ∀ b ∈ nodes subs, b + 8 ≤ r.subbase ∨ r.subtop ≤ b
  apart : (nodes subs).Pairwise fun b c => b + 8 ≤ c ∨ c + 8 ≤ b

/-- The bytes of the subscript of a node. -/
def MlkSubs.subscript (r : MlkSubs) (b : Nat) : List UInt8 :=
  let p := r2a r.mem b
  (List.range (r.mem (p + 8)).toNat).map fun i => r.mem (p + 9 + i)

namespace ShrsubAux

theorem size_pos (s : Shrsub) : 9 + s.data.length ≤ s.size := by
  unfold Shrsub.size roundUp
  omega

variable {mem mem' : Nat → UInt8} {p f b delta : Nat} {s : Shrsub} {subs : List Shrsub}

theorem size_eq (h : At mem p s) : mlkShrsubSize (mem (p + 8)) = s.size := by rw [mlkShrsubSize, h.length, size]

theorem r2a_congr {a : Nat} (h : ∀ i < 8, mem' (a + i) = mem (a + i)) : r2a mem' a = r2a mem a := by
  rw [r2a, getWord_congr h, r2a]

/-- An entry depends on its own bytes and the pointer of its node. -/
theorem at_congr (h : At mem p s) (hbytes : ∀ x, p ≤ x → x < p + s.size → mem' x = mem x)
    (hnode : ∀ b, s.owner = some b → ∀ i < 8, mem' (b + i) = mem (b + i)) : At mem' p s := by
  have hsize := size_pos s
  have hword : getWord mem' p = getWord mem p := getWord_congr fun i hi => hbytes _ (by omega) (by omega)
  refine ⟨?_, fun i hi => ?_, fun hn => hword.trans (h.abandoned hn), fun b hb => ?_⟩
  · rw [hbytes _ (by omega) (by omega), h.length]
  · rw [hbytes _ (by omega) (by omega), h.data i hi]
  · obtain ⟨hne, hpb, hbp⟩ := h.linked b hb
    exact ⟨hword ▸ hne, by rw [r2a, hword, ← hpb, r2a], by rw [r2a_congr (hnode b hb), hbp]⟩

theorem allAt_le (h : AllAt mem p f subs) : f = p + sizes subs := by
  induction subs generalizing p with
  | nil => exact h.symm
  | cons s subs ih =>
    rw [ih h.2]
    simp only [sizes, List.map_cons, List.sum_cons]
    omega

theorem mem_nodes {b : Nat} : b ∈ nodes subs ↔ ∃ s ∈ subs, s.owner = some b := by simp [nodes]

theorem nodes_cons_some (h : s.owner = some b) : nodes (s :: subs) = b :: nodes subs := by simp [nodes, h]

theorem nodes_cons_none (h : s.owner = none) : nodes (s :: subs) = nodes subs := by simp [nodes, h]

theorem nodes_append (subs subs' : List Shrsub) : nodes (subs ++ subs') = nodes subs ++ nodes subs' := by simp [nodes]

theorem allAt_congr (h : AllAt mem p f subs) (hbytes : ∀ x, p ≤ x → x < f → mem' x = mem x)
    (hnodes : ∀ b ∈ nodes subs, ∀ i < 8, mem' (b + i) = mem (b + i)) : AllAt mem' p f subs := by
  induction subs generalizing p with
  | nil => exact h
  | cons s subs ih =>
    have hf := allAt_le h.2
    refine ⟨at_congr h.1 (fun x hx hlt => hbytes x hx (by omega)) fun b hb => hnodes b (mem_nodes.mpr ⟨s, by simp, hb⟩),
      ih h.2 (fun x hx => hbytes x (by omega)) fun b hb => ?_⟩
    obtain ⟨t, ht, hb⟩ := mem_nodes.mp hb
    exact hnodes b (mem_nodes.mpr ⟨t, by simp [ht], hb⟩)

theorem allAt_append {subs' : List Shrsub} :
    AllAt mem p f (subs ++ subs') ↔ AllAt mem p (p + sizes subs) subs ∧ AllAt mem (p + sizes subs) f subs' := by
  induction subs generalizing p with
  | nil => simp [AllAt, sizes]
  | cons s subs ih =>
    have hsum : p + sizes (s :: subs) = p + s.size + sizes subs := by simp [sizes, Nat.add_assoc]
    simp only [List.cons_append, AllAt, ih, hsum, and_assoc]

/-! ## One step -/

/-- The memory after a live entry is slid down. -/
def slide (mem : Nat → UInt8) (p b delta n : Nat) : Nat → UInt8 :=
  memmove (setWord (setWord mem b (getWord mem b - BitVec.ofNat 64 delta)) p (getWord mem p + BitVec.ofNat 64 delta)) (p - delta) p n

/-- Only the bytes the entry had or has and the pointer of its node change. -/
theorem slide_other {n x : Nat} (hn : 8 ≤ n) (hx : x < p - delta ∨ p + n ≤ x) (hb : x < b ∨ b + 8 ≤ x) : slide mem p b delta n x = mem x := by
  unfold slide
  rw [memmove_of_lt _ (by omega), setWord_of_lt _ _ (by omega), setWord_of_lt _ _ hb]

/-- The step keeps the subscript of the entry, and the pointers between it and its node. -/
theorem slide_at (h : At mem p s) (hb : s.owner = some b) (hdelta : delta ≤ p) (hout : b + 8 ≤ p - delta ∨ p + s.size ≤ b) :
    At (slide mem p b delta s.size) (p - delta) s := by
  have hsize := size_pos s
  obtain ⟨-, hpb, hbp⟩ := h.linked b hb
  have hplt : p < 2 ^ 64 := hbp ▸ BitVec.isLt _
  have hsub : BitVec.ofNat 64 (p - delta) + BitVec.ofNat 64 delta = BitVec.ofNat 64 p := by
    rw [← BitVec.ofNat_add, Nat.sub_add_cancel hdelta]
  have hdata : ∀ k, 8 ≤ k → k < s.size → slide mem p b delta s.size (p - delta + k) = mem (p + k) := by
    intro k hk hlt
    rw [slide, memmove_shift _ hlt, setWord_of_lt _ _ (by omega), setWord_of_lt _ _ (by omega)]
  have hword : getWord (slide mem p b delta s.size) (p - delta) = getWord mem p + BitVec.ofNat 64 delta := by
    rw [slide, getWord_congr fun i hi => memmove_shift _ (by omega), getWord_setWord]
  have hback : r2a (slide mem p b delta s.size) (p - delta) = b := by
    have hsum : BitVec.ofNat 64 (p - delta) + (getWord mem p + BitVec.ofNat 64 delta) = BitVec.ofNat 64 p + getWord mem p := by
      rw [← hsub]
      ring
    rw [r2a, hword, hsum, ← hpb, r2a]
  have hnode : r2a (slide mem p b delta s.size) b = p - delta := by
    have hptr : getWord (slide mem p b delta s.size) b = getWord mem b - BitVec.ofNat 64 delta := by
      rw [slide, getWord_congr fun i hi => memmove_of_lt _ (by omega), getWord_setWord_of_apart _ _ (by omega), getWord_setWord]
    have hp : BitVec.ofNat 64 b + getWord mem b = BitVec.ofNat 64 p := by
      rw [← hbp, r2a, BitVec.ofNat_toNat, BitVec.setWidth_eq]
    have hsum : BitVec.ofNat 64 b + (getWord mem b - BitVec.ofNat 64 delta) = BitVec.ofNat 64 (p - delta) := by
      rw [← add_sub_assoc, hp, ← hsub, add_sub_cancel_right]
    rw [r2a, hptr, hsum, BitVec.toNat_ofNat, Nat.mod_eq_of_lt (by omega)]
  refine ⟨?_, fun i hi => ?_, fun hn => ?_, fun c hc => ?_⟩
  · rw [hdata 8 (le_refl 8) (by omega), h.length]
  · rw [Nat.add_assoc, hdata (9 + i) (by omega) (by omega), ← Nat.add_assoc, h.data i hi]
  · rw [hb] at hn
    nomatch hn
  · obtain rfl : b = c := by rw [hb] at hc; exact Option.some.inj hc
    refine ⟨fun hzero => ?_, hback, hnode⟩
    rw [r2a, hzero, add_zero, BitVec.toNat_ofNat] at hback
    omega

/-! ## The whole walk -/

/-- What is known when the walk has come to an entry: the live subscripts it has passed lie packed from the base, the others are still
in place. -/
structure WalkInv (mem : Nat → UInt8) (base p f delta : Nat) (done rest : List Shrsub) : Prop where
  packed : AllAt mem base (p - delta) done
  ahead : AllAt mem p f rest
  le : base + delta ≤ p
  outside : ∀ b ∈ nodes (done ++ rest), b + 8 ≤ base ∨ f ≤ b
  apart : (nodes (done ++ rest)).Pairwise fun b c => b + 8 ≤ c ∨ c + 8 ≤ b

variable {base : Nat} {done : List Shrsub}

/-- An abandoned entry is passed over. -/
theorem WalkInv.skip (h : WalkInv mem base p f delta done (s :: subs)) (hs : s.owner = none) :
    WalkInv mem base (p + s.size) f (delta + s.size) done subs where
  packed := by rw [Nat.add_sub_add_right]; exact h.packed
  ahead := h.ahead.2
  le := by have := h.le; omega
  outside := by simpa [nodes_append, nodes_cons_none hs] using h.outside
  apart := by simpa [nodes_append, nodes_cons_none hs] using h.apart

/-- The entry stays where it is as long as nothing is abandoned. -/
theorem WalkInv.stay (h : WalkInv mem base p f 0 done (s :: subs)) : WalkInv mem base (p + s.size) f 0 (done ++ [s]) subs where
  packed := by
    have hend := allAt_le h.packed
    refine allAt_append.mpr ⟨hend ▸ h.packed, ?_⟩
    rw [← hend]
    exact ⟨h.ahead.1, rfl⟩
  ahead := h.ahead.2
  le := by have := h.le; omega
  outside := by simpa using h.outside
  apart := by simpa using h.apart

/-- The entry is slid down behind those that are packed. -/
theorem WalkInv.move (h : WalkInv mem base p f delta done (s :: subs)) (hs : s.owner = some b) :
    WalkInv (slide mem p b delta s.size) base (p + s.size) f delta (done ++ [s]) subs := by
  have hsize := size_pos s
  have hle := h.le
  have hend := allAt_le h.packed
  have hf := allAt_le h.ahead.2
  have hb : b ∈ nodes (done ++ s :: subs) := mem_nodes.mpr ⟨s, by simp, hs⟩
  have hout : b + 8 ≤ base ∨ f ≤ b := h.outside b hb
  have hother : ∀ c ∈ nodes done ++ nodes subs, ∀ i < 8, slide mem p b delta s.size (c + i) = mem (c + i) := by
    have hapart := h.apart
    rw [nodes_append, nodes_cons_some hs] at hapart
    intro c hc i hi
    have hcb : c + 8 ≤ b ∨ b + 8 ≤ c := by
      rcases List.mem_append.mp hc with hc | hc
      · exact (List.pairwise_append.mp hapart).2.2 c hc b (by simp)
      · exact ((List.pairwise_cons.mp (List.pairwise_append.mp hapart).2.1).1 c hc).symm
    have hcout : c + 8 ≤ base ∨ f ≤ c := by
      refine h.outside c ?_
      rw [nodes_append, nodes_cons_some hs]
      rcases List.mem_append.mp hc with hc | hc <;> simp [hc]
    exact slide_other (by omega) (by omega) (by omega)
  refine ⟨?_, ?_, by omega, by simpa using h.outside, by simpa using h.apart⟩
  · refine allAt_append.mpr ⟨?_, ?_⟩
    · rw [← hend]
      exact allAt_congr h.packed (fun x hx hlt => slide_other (by omega) (by omega) (by omega)) fun c hc => hother c (by simp [hc])
    · rw [← hend]
      exact ⟨slide_at h.ahead.1 hs (by omega) (by omega), show p - delta + s.size = p + s.size - delta by omega⟩
  · exact allAt_congr h.ahead.2 (fun x hx hlt => slide_other (by omega) (by omega) (by omega)) fun c hc => hother c (by simp [hc])

/-- The loop of the collection. -/
theorem shrsubGcLoop_spec {rest : List Shrsub} (h : WalkInv mem base p f delta done rest)
    (hdone : ∀ s ∈ done, s.live = true) (hrest : shrsubGcLoop mem p f delta = (mem', b)) :
    WalkInv mem' base f f b (done ++ rest.filter live) [] ∧ b = delta + sizes (rest.filter fun s => !s.live) ∧
      ∀ x, (x < base ∨ f ≤ x) → (∀ c ∈ nodes rest, x < c ∨ c + 8 ≤ x) → mem' x = mem x := by
  induction rest generalizing mem p delta done with
  | nil =>
    obtain rfl : p = f := h.ahead
    rw [shrsubGcLoop, if_neg (lt_irrefl p)] at hrest
    obtain ⟨rfl, rfl⟩ := Prod.mk.inj hrest
    exact ⟨by simpa using h, by simp [sizes], fun _ _ _ => rfl⟩
  | cons s rest ih =>
    have hsize := size_pos s
    have hf := allAt_le h.ahead.2
    have hle := h.le
    rw [shrsubGcLoop, if_pos (by omega), size_eq h.ahead.1] at hrest
    cases hs : s.owner with
    | none =>
      simp only [if_pos (h.ahead.1.abandoned hs)] at hrest
      obtain ⟨hwalk, hb, hframe⟩ := ih (h.skip hs) hdone hrest
      have hlive : s.live = false := by simp [live, hs]
      refine ⟨by simpa [hlive] using hwalk, ?_, fun x hx hc => hframe x hx (by simpa [nodes_cons_none hs] using hc)⟩
      simp only [hb, hlive, sizes, Bool.not_false, List.filter_cons_of_pos, List.map_cons, List.sum_cons]
      omega
    | some c =>
      obtain ⟨hne, hback, -⟩ := h.ahead.1.linked c hs
      have hlive : s.live = true := by simp [live, hs]
      have hdone' : ∀ t ∈ done ++ [s], t.live = true := by
        simp only [List.mem_append, List.mem_singleton]
        rintro t (ht | rfl)
        exacts [hdone t ht, hlive]
      have hcons : done ++ [s] ++ rest.filter live = done ++ (s :: rest).filter live := by simp [hlive]
      have hsum : (s :: rest).filter (fun s => !s.live) = rest.filter fun s => !s.live := by simp [hlive]
      simp only [if_neg hne, hback] at hrest
      by_cases hdelta : delta = 0
      · subst hdelta
        obtain ⟨hwalk, hb, hframe⟩ := ih h.stay hdone' hrest
        refine ⟨hcons ▸ hwalk, by rw [hb, hsum], fun x hx hc => hframe x hx fun c hc' => hc c ?_⟩
        simp [nodes_cons_some hs, hc']
      · simp only [ne_eq, hdelta, not_false_eq_true, if_true] at hrest
        obtain ⟨hwalk, hb, hframe⟩ := ih (h.move hs) hdone' hrest
        refine ⟨hcons ▸ hwalk, by rw [hb, hsum], fun x hx hc' => ?_⟩
        rw [nodes_cons_some hs] at hc'
        rw [hframe x hx fun c hc => hc' c (by simp [hc])]
        exact slide_other (by omega) (by omega) (hc' c (by simp))

/-! ## Nodes that come and go -/

/-- A memory that differs only from `subfree` on and in a block apart from the nodes holds the same subscripts. -/
theorem allAt_of_apart {r : MlkSubs} (h : r.Holds subs) (hd : ∀ c ∈ nodes subs, c + 8 ≤ b ∨ b + 8 ≤ c)
    (hout : b + 8 ≤ r.subbase ∨ r.subtop ≤ b) {e : Nat} (he : e ≤ r.subtop)
    (hmem : ∀ x, (x < r.subfree ∨ e ≤ x) → (x < b ∨ b + 8 ≤ x) → mem' x = r.mem x) : AllAt mem' r.subbase r.subfree subs := by
  have htop := h.top
  have hle := allAt_le h.entries
  refine allAt_congr h.entries (fun x hx hlt => hmem x (by omega) (by omega)) fun c hc i hi => ?_
  have := h.outside c hc
  have := hd c hc
  exact hmem _ (by omega) (by omega)

/-- The memory after the subscript of a new node is stored. -/
theorem create_at {r : MlkSubs} {len : UInt8} {data : List UInt8} (hlen : data.length = len.toNat) (hb : b + 8 ≤ 2 ^ 64)
    (hfree : r.subfree < 2 ^ 64) (hout : b + 8 ≤ r.subfree ∨ r.subfree + mlkShrsubSize len ≤ b) :
    At (r.create b data len).mem r.subfree ⟨some b, data⟩ ∧
      ∀ x, (x < r.subfree ∨ r.subfree + mlkShrsubSize len ≤ x) → (x < b ∨ b + 8 ≤ x) → (r.create b data len).mem x = r.mem x := by
  have hsize := mlkShrsubSize_pos len
  have hptr : ∀ x, x < r.subfree + 8 ∨ r.subfree + mlkShrsubSize len ≤ x →
      (r.create b data len).mem x = a2r (a2r r.mem b r.subfree) r.subfree b x := by
    intro x hx
    simp only [MlkSubs.create]
    rw [if_neg (by omega), Function.update_of_ne (by omega)]
  have hr2a : ∀ (m : Nat → UInt8) (x y : Nat), y < 2 ^ 64 → r2a (a2r m x y) x = y := by
    intro m x y hy
    rw [r2a, a2r, getWord_setWord, add_sub_cancel, BitVec.toNat_ofNat, Nat.mod_eq_of_lt hy]
  have hback : r2a (r.create b data len).mem r.subfree = b := by
    rw [r2a_congr fun i hi => hptr _ (by omega), hr2a _ _ _ (by omega)]
  have hnode : r2a (r.create b data len).mem b = r.subfree := by
    rw [r2a_congr fun i hi => hptr _ (by omega), a2r, r2a_congr fun i hi => setWord_of_lt _ _ (by omega), hr2a _ _ _ hfree]
  refine ⟨⟨?_, fun i hi => ?_, nofun, ?_⟩, fun x hx hxb => ?_⟩
  · simp [MlkSubs.create, hlen]
  · have hi' : i < data.length := hi
    simp only [MlkSubs.create]
    rw [if_pos (by omega), Nat.add_sub_cancel_left]
  · rintro c ⟨⟩
    refine ⟨fun hzero => ?_, hback, hnode⟩
    rw [r2a, hzero, add_zero, BitVec.toNat_ofNat] at hback
    omega
  · rw [hptr x (by omega), a2r, setWord_of_lt _ _ (by omega), a2r, setWord_of_lt _ _ hxb]

end ShrsubAux

open ShrsubAux

variable {r : MlkSubs} {subs : List Shrsub}

/-- A new node has its subscript appended. -/
theorem MlkSubs.Holds.create (h : r.Holds subs) {ret : Nat} {val : List UInt8} {len : UInt8}
    (hlen : val.length = len.toNat) (hroom : r.subfree + mlkShrsubSize len ≤ r.subtop) (hret : ret + 8 ≤ 2 ^ 64)
    (hout : ret + 8 ≤ r.subbase ∨ r.subtop ≤ ret) (hapart : ∀ c ∈ nodes subs, c + 8 ≤ ret ∨ ret + 8 ≤ c) :
    (r.create ret val len).Holds (subs ++ [⟨some ret, val⟩]) := by
  have hsize := mlkShrsubSize_pos len
  have hle := allAt_le h.entries
  have hbound := h.bound
  have hsz : (⟨some ret, val⟩ : Shrsub).size = mlkShrsubSize len := by rw [Shrsub.size, mlkShrsubSize, hlen]
  obtain ⟨hat, hframe⟩ := create_at hlen hret (r := r) (by omega) (by omega)
  refine ⟨allAt_append.mpr ?_, hroom, hbound, ?_, ?_⟩
  · rw [show (r.create ret val len).subbase = r.subbase from rfl, ← hle]
    exact ⟨allAt_of_apart h hapart hout hroom hframe, hat, by rw [hsz]; rfl⟩
  · rw [nodes_append]
    intro c hc
    rcases List.mem_append.mp hc with hc | hc
    · exact h.outside c hc
    · obtain rfl : c = ret := by simpa [nodes] using hc
      exact hout
  · rw [nodes_append]
    refine List.pairwise_append.mpr ⟨h.apart, by simp [nodes], fun c hc c' hc' => ?_⟩
    obtain rfl : c' = ret := by simpa [nodes] using hc'
    exact hapart c hc

/-- The subscript without its node, if that is the one named. -/
def Shrsub.forget (d : Nat) (s : Shrsub) : Shrsub := if s.owner = some d then { s with owner := none } else s

theorem Shrsub.forget_eq_self {d : Nat} (h : d ∉ nodes subs) : subs.map (forget d) = subs := by
  refine (List.map_congr_left fun s hs => ?_).trans (List.map_id subs)
  exact if_neg fun hd => h (mem_nodes.mpr ⟨s, hs, hd⟩)

/-- A node that is deleted has its subscript abandoned. -/
theorem MlkSubs.Holds.abandon (h : r.Holds subs) {d : Nat} (hd : d ∈ nodes subs) : (r.abandon d).Holds (subs.map (forget d)) := by
  obtain ⟨s, hs, hsd⟩ := mem_nodes.mp hd
  obtain ⟨pre, post, rfl⟩ := List.append_of_mem hs
  have hapart := h.apart
  rw [nodes_append, nodes_cons_some hsd] at hapart
  obtain ⟨-, hpost, hpre⟩ := List.pairwise_append.mp hapart
  have hpre' : ∀ c ∈ nodes pre, c + 8 ≤ d ∨ d + 8 ≤ c := fun c hc => hpre c hc d (by simp)
  have hpost' : ∀ c ∈ nodes post, d + 8 ≤ c ∨ c + 8 ≤ d := (List.pairwise_cons.mp hpost).1
  have hmap : (pre ++ s :: post).map (forget d) = pre ++ { s with owner := none } :: post := by
    have hs' : forget d s = { s with owner := none } := if_pos hsd
    rw [List.map_append, List.map_cons, hs', forget_eq_self fun hm => ?_, forget_eq_self fun hm => ?_]
    · have := hpost' d hm
      omega
    · have := hpre' d hm
      omega
  have hsub : (nodes (pre ++ { s with owner := none } :: post)).Sublist (nodes (pre ++ s :: post)) := by
    rw [nodes_append, nodes_append, nodes_cons_some hsd]
    exact (List.Sublist.refl _).append (List.sublist_cons_self _ _)
  have hout := h.outside d hd
  have htop := h.top
  obtain ⟨h1, h2, h3⟩ := allAt_append.mp h.entries
  have hend := allAt_le h3
  have hsize := size_pos s
  have hsame : ({ s with owner := none } : Shrsub).size = s.size := rfl
  obtain ⟨-, -, hp⟩ := h2.linked d hsd
  have habandon : (r.abandon d).mem = setWord (setWord r.mem (r.subbase + sizes pre) 0) d 0 := by rw [MlkSubs.abandon, hp]
  have hmem : ∀ x, (x < r.subbase + sizes pre ∨ r.subbase + sizes pre + 8 ≤ x) → (x < d ∨ d + 8 ≤ x) → (r.abandon d).mem x = r.mem x := by
    intro x hx hxd
    rw [habandon, setWord_of_lt _ _ hxd, setWord_of_lt _ _ hx]
  have hnode : ∀ c, (c + 8 ≤ d ∨ d + 8 ≤ c) → c ∈ nodes (pre ++ s :: post) → ∀ i < 8, (r.abandon d).mem (c + i) = r.mem (c + i) := by
    intro c hcd hc i hi
    have := h.outside c hc
    exact hmem _ (by omega) (by omega)
  have hzero : getWord (r.abandon d).mem (r.subbase + sizes pre) = 0 := by
    rw [habandon, getWord_setWord_of_apart _ _ (by omega), getWord_setWord]
  have hentry : At (r.abandon d).mem (r.subbase + sizes pre) { s with owner := none } := by
    refine ⟨?_, fun i hi => ?_, fun _ => hzero, nofun⟩
    · rw [hmem _ (by omega) (by omega), h2.length]
    · have hi' : i < s.data.length := hi
      rw [hmem _ (by omega) (by omega), h2.data i hi']
  have hentries : AllAt (r.abandon d).mem r.subbase r.subfree (pre ++ { s with owner := none } :: post) := by
    refine allAt_append.mpr ⟨?_, hentry, ?_⟩
    · refine allAt_congr h1 (fun x hx hlt => hmem x (by omega) (by omega)) fun c hc => hnode c (hpre' c hc) ?_
      simp [nodes_append, hc]
    · refine allAt_congr h3 (fun x hx hlt => hmem x (by omega) (by omega)) fun c hc => hnode c (hpost' c hc).symm ?_
      simp [nodes_append, nodes_cons_some hsd, hc]
  rw [hmap]
  exact ⟨hentries, htop, h.bound, fun c hc => h.outside c (hsub.subset hc), h.apart.sublist hsub⟩

/-- Collecting keeps the live subscripts. -/
theorem MlkSubs.Holds.collect (h : r.Holds subs) : (mlkShrsubGarbageCollect r).Holds (subs.filter live) ∧
      (mlkShrsubGarbageCollect r).subfree + sizes (subs.filter fun s => !s.live) = r.subfree ∧
      ∀ x, (x < r.subbase ∨ r.subfree ≤ x) → (∀ c ∈ nodes subs, x < c ∨ c + 8 ≤ x) → (mlkShrsubGarbageCollect r).mem x = r.mem x := by
  have htop := h.top
  have hwalk : WalkInv r.mem r.subbase r.subbase r.subfree 0 [] subs :=
    ⟨rfl, h.entries, by omega, fun b hb => (h.outside b hb).imp_right (by omega), h.apart⟩
  cases hloop : shrsubGcLoop r.mem r.subbase r.subfree 0 with
  | mk mem' delta =>
    obtain ⟨hend, hdelta, hframe⟩ := shrsubGcLoop_spec hwalk (by simp) hloop
    have hcollect : mlkShrsubGarbageCollect r = { r with mem := mem', subfree := r.subfree - delta } := by
      rw [mlkShrsubGarbageCollect, hloop]
    have hle := hend.le
    have hnodes : (nodes (subs.filter live)).Sublist (nodes subs) := List.filter_sublist.filterMap _
    rw [hcollect]
    refine ⟨⟨by simpa using hend.packed, show r.subfree - delta ≤ r.subtop by omega, h.bound,
      fun b hb => h.outside b (hnodes.subset hb), h.apart.sublist hnodes⟩, ?_, hframe⟩
    simp only
    omega

/-- The lock space of any run: it starts without subscripts, nodes are created where nothing else is, when there is room, deleted in
any order, and abandoned subscripts collected at any time. -/
inductive MlkSubs.Run : MlkSubs → List Shrsub → Prop
  | init {r : MlkSubs} (hfree : r.subfree = r.subbase) (htop : r.subbase ≤ r.subtop) (hbound : r.subtop ≤ 2 ^ 64) : Run r []
  | create {r : MlkSubs} {subs : List Shrsub} {ret nshrs nrefLength off : Nat} {val : List UInt8} {len : UInt8} (h : Run r subs)
      (hroom : r.hasRoom nshrs nrefLength off = true) (hnshrs : 1 ≤ nshrs) (hoff : off + len.toNat ≤ nrefLength)
      (hlen : val.length = len.toNat) (hret : ret + 8 ≤ 2 ^ 64) (hout : ret + 8 ≤ r.subbase ∨ r.subtop ≤ ret)
      (hapart : ∀ c ∈ nodes subs, c + 8 ≤ ret ∨ ret + 8 ≤ c) : Run (r.create ret val len) (subs ++ [⟨some ret, val⟩])
  | abandon {r : MlkSubs} {subs : List Shrsub} {d : Nat} (h : Run r subs) (hd : d ∈ nodes subs) :
      Run (r.abandon d) (subs.map (forget d))
  | collect {r : MlkSubs} {subs : List Shrsub} (h : Run r subs) : Run (mlkShrsubGarbageCollect r) (subs.filter live)

theorem MlkSubs.Run.holds (h : Run r subs) : r.Holds subs := by
  induction h with
  | init hfree htop hbound => exact ⟨hfree.symm, hfree ▸ htop, hbound, by simp [nodes], by simp [nodes]⟩
  | @create r subs ret nshrs nrefLength off val len _ hroom hnshrs hoff hlen hret hout hapart ih =>
    refine ih.create hlen ?_ hret hout hapart
    simp only [MlkSubs.hasRoom, Bool.not_eq_eq_eq_not, Bool.not_true, decide_eq_false_iff_not, not_lt] at hroom
    unfold mlkShrsubSize roundUp
    omega
  | abandon _ hd ih => exact ih.abandon hd
  | collect _ ih => exact ih.collect.1

namespace ShrsubAux

theorem subscript_of_at {r : MlkSubs} {p b : Nat} {s : Shrsub} (h : At r.mem p s) (hb : s.owner = some b) : r.subscript b = s.data := by
  obtain ⟨-, -, hp⟩ := h.linked b hb
  rw [MlkSubs.subscript, hp, h.length]
  refine List.ext_getElem (by simp) fun i hi hi' => ?_
  simp [h.data i hi', List.getD_eq_getElem?_getD, hi']

/-- A node of the list points to an entry with its subscript, which points back. -/
theorem linked_of_mem {r : MlkSubs} {subs : List Shrsub} (h : r.Holds subs) {s : Shrsub} (hs : s ∈ subs) {b : Nat}
    (hb : s.owner = some b) : r.subscript b = s.data ∧ r2a r.mem (r2a r.mem b) = b := by
  obtain ⟨pre, post, rfl⟩ := List.append_of_mem hs
  have hat : At r.mem _ s := (allAt_append.mp h.entries).2.1
  obtain ⟨-, hback, hp⟩ := hat.linked b hb
  exact ⟨subscript_of_at hat hb, by rw [hp, hback]⟩

end ShrsubAux

/-- In a lock space that holds any list of subscripts, `mlk_shrsub_garbage_collect` leaves the live ones, packed from the base in their
order; every node points to an entry with the bytes it had, and the entry back to it; what the abandoned ones took becomes available;
and nothing else changes. -/
theorem mlk_shrsub_garbage_collect_packs (r : MlkSubs) (subs : List Shrsub) (h : r.Holds subs) :
    let r' := mlkShrsubGarbageCollect r
    AllAt r'.mem r.subbase r'.subfree (subs.filter live) ∧
      (∀ b ∈ nodes subs, r'.subscript b = r.subscript b ∧ r2a r'.mem (r2a r'.mem b) = b) ∧
      (r'.subbase = r.subbase ∧ r'.subtop = r.subtop ∧
        r'.subtop - r'.subfree = r.subtop - r.subfree + sizes (subs.filter fun s => !s.live)) ∧
      (∀ x, (x < r.subbase ∨ r.subfree ≤ x) → (∀ b ∈ nodes subs, x < b ∨ b + 8 ≤ x) → r'.mem x = r.mem x) ∧
      r'.Holds (subs.filter live) := by
  obtain ⟨hholds, hfree, hframe⟩ := h.collect
  have htop := h.top
  refine ⟨hholds.entries, fun b hb => ?_, ⟨rfl, rfl, ?_⟩, hframe, hholds⟩
  · obtain ⟨s, hs, hsb⟩ := mem_nodes.mp hb
    obtain ⟨hdata, hback⟩ := linked_of_mem hholds (List.mem_filter.mpr ⟨hs, by simp [live, hsb]⟩) hsb
    exact ⟨hdata.trans (linked_of_mem h hs hsb).1.symm, hback⟩
  · rw [show (mlkShrsubGarbageCollect r).subtop = r.subtop from rfl]
    omega

/-- Two nodes are created and the first is deleted again. -/
theorem mlk_shrsub_garbage_collect_packs_two :
    ∃ r : MlkSubs, r.Holds [⟨none, [0x41]⟩, ⟨some 100, [0x42, 0x43]⟩] ∧
      AllAt (mlkShrsubGarbageCollect r).mem 1000 (mlkShrsubGarbageCollect r).subfree [⟨some 100, [0x42, 0x43]⟩] := by
  have h0 : MlkSubs.Holds ⟨fun _ => 0, 1000, 1000, 2000⟩ [] := (MlkSubs.Run.init rfl (by decide) (by decide)).holds
  have h1 : (MlkSubs.create _ 0 [0x41] 1).Holds [⟨some 0, [0x41]⟩] :=
    h0.create rfl (by decide) (by decide) (Or.inl (by decide)) (by simp [nodes])
  have h2 : (MlkSubs.create _ 100 [0x42, 0x43] 2).Holds [⟨some 0, [0x41]⟩, ⟨some 100, [0x42, 0x43]⟩] :=
    h1.create rfl (by decide) (by decide) (Or.inl (by decide)) (by simp [nodes])
  have h3 : (MlkSubs.abandon _ 0).Holds [⟨none, [0x41]⟩, ⟨some 100, [0x42, 0x43]⟩] := h2.abandon (by simp [nodes])
  exact ⟨_, h3, (mlk_shrsub_garbage_collect_packs _ _ h3).1⟩

end Gtm
