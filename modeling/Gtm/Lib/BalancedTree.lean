import Mathlib

/-!
# Balanced trees

Binary trees in which every node keeps which of its subtrees is the higher one, and how they are mended from below after one of
their subtrees has become higher or lower by one. A place in a tree is the list of the frames on the way up from it. `Grown` and
`Shrunk` say what the way up does to the frames: they are stated for both sides at once, by the side of the frame.
-/

namespace BalTree

/-- A side of a node. -/
inductive Side
  | left
  | right
deriving DecidableEq, Repr

/-- The other side. -/
def Side.flip : Side → Side
  | .left => .right
  | .right => .left

@[simp] theorem Side.flip_flip (s : Side) : s.flip.flip = s := by cases s <;> rfl

theorem Side.flip_ne (s : Side) : s.flip ≠ s := by cases s <;> simp [flip]

theorem Side.eq_or_flip (s s' : Side) : s' = s ∨ s' = s.flip := by cases s <;> cases s' <;> simp [flip]

/-- A tree. A node has the side of its higher subtree, or `none` if both are of the same height. -/
inductive BinTree (α : Type*)
  | nil
  | node (l : BinTree α) (a : α) (b : Option Side) (r : BinTree α)

/-- A step on the way up: the side from which it comes, the node, its balance, and its subtree on the other side. -/
structure Frame (α : Type*) where
  side : Side
  a : α
  bal : Option Side
  sib : BinTree α

variable {α : Type*}

namespace BinTree

/-- A node with the subtree `t` on the side `s`, and `u` on the other. -/
def mk (s : Side) (t : BinTree α) (a : α) (b : Option Side) (u : BinTree α) : BinTree α :=
  match s with
  | .left => node t a b u
  | .right => node u a b t

def height : BinTree α → Nat
  | nil => 0
  | node l _ _ r => max l.height r.height + 1

/-- The nodes in order. -/
def toList : BinTree α → List α
  | nil => []
  | node l a _ r => l.toList ++ a :: r.toList

/-- A balance fits the heights of the subtrees on the side `s` and on the other. -/
def Fits (s : Side) (b : Option Side) (h k : Nat) : Prop :=
  match b with
  | none => h = k
  | some s' => if s' = s then h = k + 1 else k = h + 1

/-- Every balance fits. -/
def Avl : BinTree α → Prop
  | nil => True
  | node l _ b r => l.Avl ∧ r.Avl ∧ Fits .left b l.height r.height

theorem fits_flip (s : Side) (b : Option Side) (h k : Nat) : Fits s.flip b h k ↔ Fits s b k h := by
  cases s <;> rcases b with _ | _ | _ <;> simp [Fits, Side.flip, eq_comm]

section
variable (s : Side) (t : BinTree α) (a : α) (b : Option Side) (u : BinTree α)
include s t a b u

@[simp] theorem height_mk : (mk s t a b u).height = max t.height u.height + 1 := by
  cases s
  · rfl
  · exact congrArg (· + 1) (Nat.max_comm _ _)

@[simp] theorem avl_mk : (mk s t a b u).Avl ↔ t.Avl ∧ u.Avl ∧ Fits s b t.height u.height := by
  cases s
  · rfl
  · have := fits_flip .left b t.height u.height
    simp only [mk, Avl, Side.flip] at this ⊢
    tauto

theorem mk_flip : mk s.flip t a b u = mk s u a b t := by
  cases s <;> rfl

end

variable {t t' : BinTree α} {c : List (Frame α)} {a n : α} {s : Side} {g : Bool}

/-- A tree that is not empty, seen from a side. -/
theorem exists_mk (s : Side) (h : t ≠ nil) : ∃ u a b v, t = mk s u a b v := by
  cases t with
  | nil => exact absurd rfl h
  | node l a b r =>
    cases s with
    | left => exact ⟨l, a, b, r, rfl⟩
    | right => exact ⟨r, a, b, l, rfl⟩

theorem exists_mk_of_height (s : Side) (h : 0 < t.height) : ∃ u a b v, t = mk s u a b v := by
  apply exists_mk
  rintro rfl
  simp [height] at h

/-! ## Places -/

/-- The tree with `t` at the place. -/
def plug : List (Frame α) → BinTree α → BinTree α
  | [], t => t
  | f :: c, t => plug c (mk f.side t f.a f.bal f.sib)

@[simp] theorem plug_nil (t : BinTree α) : plug [] t = t := rfl

@[simp] theorem plug_cons (f : Frame α) (c : List (Frame α)) (t : BinTree α) :
    plug (f :: c) t = plug c (mk f.side t f.a f.bal f.sib) := rfl

theorem plug_append (c d : List (Frame α)) (t : BinTree α) : plug (c ++ d) t = plug d (plug c t) := by
  induction c generalizing t with
  | nil => rfl
  | cons f c ih => exact ih _

/-- The nodes before a place. -/
def before : List (Frame α) → List α
  | [] => []
  | f :: c => match f.side with
    | .left => before c
    | .right => before c ++ (f.sib.toList ++ [f.a])

/-- The nodes after a place. -/
def after : List (Frame α) → List α
  | [] => []
  | f :: c => match f.side with
    | .left => f.a :: f.sib.toList ++ after c
    | .right => after c

theorem toList_plug (c : List (Frame α)) (t : BinTree α) : (plug c t).toList = before c ++ t.toList ++ after c := by
  induction c generalizing t with
  | nil => simp [before, after]
  | cons f c ih =>
    rw [plug_cons, ih]
    cases hs : f.side <;> simp [before, after, hs, mk, toList]

/-- A place holds the same nodes in order under another tree with the same nodes. -/
theorem toList_plug_congr (c : List (Frame α)) {u : BinTree α} (h : t.toList = u.toList) : (plug c t).toList = (plug c u).toList := by
  rw [toList_plug, toList_plug, h]

/-- The nodes on the way up and in the subtrees beside it. -/
def ctxNodes (c : List (Frame α)) : List α := c.flatMap fun f => f.a :: f.sib.toList

@[simp] theorem ctxNodes_nil : ctxNodes ([] : List (Frame α)) = [] := rfl

@[simp] theorem ctxNodes_cons (f : Frame α) (c : List (Frame α)) : ctxNodes (f :: c) = f.a :: f.sib.toList ++ ctxNodes c := rfl

theorem toList_mk_perm (s : Side) (t : BinTree α) (a : α) (b : Option Side) (u : BinTree α) :
    (mk s t a b u).toList.Perm (a :: t.toList ++ u.toList) := by
  cases s with
  | left => exact List.perm_middle
  | right =>
    refine List.perm_middle.trans (List.Perm.cons a ?_)
    exact List.perm_append_comm

theorem toList_plug_perm (c : List (Frame α)) (t : BinTree α) : (plug c t).toList.Perm (t.toList ++ ctxNodes c) := by
  induction c generalizing t with
  | nil => simp
  | cons f c ih =>
    refine (ih _).trans ?_
    refine ((toList_mk_perm f.side t f.a f.bal f.sib).append_right _).trans ?_
    simp only [List.cons_append, List.append_assoc]
    exact List.perm_middle.symm

theorem mem_before_or_after {f : Frame α} (hf : f ∈ c) :
    match f.side with
    | .left => f.a ∈ after c
    | .right => f.a ∈ before c := by
  induction c with
  | nil => simp at hf
  | cons g c ih =>
    rcases List.mem_cons.1 hf with rfl | hf
    · cases hs : f.side <;> simp [before, after, hs]
    · have := ih hf
      cases hs : f.side <;> cases hg : g.side <;> simp only [hs, before, after, hg] at this ⊢ <;> simp [this]

/-- The frames fit a tree of height `h` at the place. -/
def AvlCtx : List (Frame α) → Nat → Prop
  | [], _ => True
  | f :: c, h => f.sib.Avl ∧ Fits f.side f.bal h f.sib.height ∧ AvlCtx c (max h f.sib.height + 1)

/-- The height of the tree with a tree of height `h` at the place. -/
def ctxHeight : List (Frame α) → Nat → Nat
  | [], h => h
  | f :: c, h => ctxHeight c (max h f.sib.height + 1)

theorem height_plug (c : List (Frame α)) (t : BinTree α) : (plug c t).height = ctxHeight c t.height := by
  induction c generalizing t with
  | nil => rfl
  | cons f c ih => rw [plug_cons, ih, height_mk, ctxHeight]

theorem length_le_ctxHeight (c : List (Frame α)) (h : Nat) : c.length + h ≤ ctxHeight c h := by
  induction c generalizing h with
  | nil => simp [ctxHeight]
  | cons f c ih =>
    have := ih (max h f.sib.height + 1)
    rw [ctxHeight, List.length_cons]
    omega

theorem length_le_height_plug (c : List (Frame α)) (t : BinTree α) : c.length + t.height ≤ (plug c t).height := by
  rw [height_plug]
  exact length_le_ctxHeight c t.height

theorem avl_plug (c : List (Frame α)) (t : BinTree α) : (plug c t).Avl ↔ t.Avl ∧ AvlCtx c t.height := by
  induction c generalizing t with
  | nil => simp [AvlCtx]
  | cons f c ih =>
    rw [plug_cons, ih, avl_mk, height_mk, AvlCtx]
    tauto

/-- The balances of a way up do not depend on the nodes on it. -/
theorem avlCtx_rename (e c : List (Frame α)) (s : Side) (a a' : α) (b : Option Side) (u : BinTree α) (h : Nat) :
    AvlCtx (e ++ ⟨s, a, b, u⟩ :: c) h ↔ AvlCtx (e ++ ⟨s, a', b, u⟩ :: c) h := by
  induction e generalizing h with
  | nil => rfl
  | cons f e ih => simp only [List.cons_append, AvlCtx, ih]

theorem ctxHeight_rename (e c : List (Frame α)) (s : Side) (a a' : α) (b : Option Side) (u : BinTree α) (h : Nat) :
    ctxHeight (e ++ ⟨s, a, b, u⟩ :: c) h = ctxHeight (e ++ ⟨s, a', b, u⟩ :: c) h := by
  induction e generalizing h with
  | nil => rfl
  | cons f e ih => simp only [List.cons_append, ctxHeight, ih]

theorem before_eq_nil {e : List (Frame α)} (h : ∀ f ∈ e, f.side = .left) : before e = [] := by
  induction e with
  | nil => rfl
  | cons f e ih =>
    rw [before, h f (by simp)]
    exact ih fun g hg => h g (by simp [hg])

/-- The next node after a place is on the way up. -/
theorem exists_frame_of_after (h : (after c).head? = some a) : ∃ d f e, c = d ++ f :: e ∧ f.a = a := by
  induction c with
  | nil => simp [after] at h
  | cons f c ih =>
    cases hs : f.side with
    | left =>
      simp only [after, hs, List.cons_append, List.head?_cons, Option.some.injEq] at h
      exact ⟨[], f, c, rfl, h⟩
    | right =>
      simp only [after, hs] at h
      obtain ⟨d, g, e, rfl, hg⟩ := ih h
      exact ⟨f :: d, g, e, rfl, hg⟩

/-- The last node before a place is on the way up. -/
theorem exists_frame_of_before (h : (before c).getLast? = some a) : ∃ d f e, c = d ++ f :: e ∧ f.a = a := by
  induction c with
  | nil => simp [before] at h
  | cons f c ih =>
    cases hs : f.side with
    | left =>
      simp only [before, hs] at h
      obtain ⟨d, g, e, rfl, hg⟩ := ih h
      exact ⟨f :: d, g, e, rfl, hg⟩
    | right =>
      rw [before, hs, ← List.append_assoc, List.getLast?_concat, Option.some.injEq] at h
      exact ⟨[], f, c, rfl, h⟩

/-- Every node is at a place. -/
theorem exists_place (h : a ∈ t.toList) : ∃ c l b r, t = plug c (node l a b r) := by
  induction t with
  | nil => simp [toList] at h
  | node l x b r ihl ihr =>
    rw [toList, List.mem_append, List.mem_cons] at h
    rcases h with h | rfl | h
    · obtain ⟨c, l', b', r', rfl⟩ := ihl h
      exact ⟨c ++ [⟨.left, x, b, r⟩], l', b', r', by simp [plug_append, mk]⟩
    · exact ⟨[], l, b, r, rfl⟩
    · obtain ⟨c, l', b', r', rfl⟩ := ihr h
      exact ⟨c ++ [⟨.right, x, b, l⟩], l', b', r', by simp [plug_append, mk]⟩

/-- The last node on a side. -/
def last (s : Side) (t : BinTree α) : Option α :=
  match s with
  | .left => t.toList.head?
  | .right => t.toList.getLast?

theorem last_mk (s : Side) (t : BinTree α) (a : α) (b : Option Side) (u : BinTree α) : last s (mk s t a b u) = (last s t).or (some a) := by
  cases s with
  | left => cases h : t.toList <;> simp [last, mk, toList, h]
  | right =>
    simp only [last, mk, toList, List.getLast?_append, List.getLast?_cons]
    cases t.toList.getLast? <;> rfl

theorem last_isSome (h : t ≠ nil) : (last s t).isSome = true := by
  obtain ⟨u, a, b, v, rfl⟩ := exists_mk s h
  rw [last_mk]
  simp

/-! ## Post-order -/

/-- The nodes, every one after its subtrees. -/
def postList : BinTree α → List α
  | nil => []
  | node l a _ r => l.postList ++ r.postList ++ [a]

theorem postList_perm (t : BinTree α) : t.postList.Perm t.toList := by
  induction t with
  | nil => exact .refl _
  | node l a b r ihl ihr =>
    rw [postList, List.append_assoc]
    exact ihl.append ((ihr.append_right [a]).trans List.perm_append_comm)

/-- What comes in post-order after the subtree at a place. -/
def postRest : List (Frame α) → List α
  | [] => []
  | f :: c => (match f.side with
    | .left => f.sib.postList
    | .right => []) ++ f.a :: postRest c

theorem postRest_append (c d : List (Frame α)) : postRest (c ++ d) = postRest c ++ postRest d := by
  induction c with
  | nil => rfl
  | cons f c ih => simp [postRest, ih]

/-! ## Search -/

/-- The search for a key that lies on the side `dir a` of the node `a`, or is at it: the node, or the last node on the way and the side
of it that is empty. -/
def seek (dir : α → Option Side) : BinTree α → Option (α × Option Side)
  | nil => none
  | node l a _ r =>
    match dir a with
    | none => some (a, none)
    | some .left => (seek dir l).or (some (a, some .left))
    | some .right => (seek dir r).or (some (a, some .right))

theorem seek_mk {dir : α → Option Side} (h : dir a = some s) (t : BinTree α) (b : Option Side) (u : BinTree α) :
    seek dir (mk s t a b u) = (seek dir t).or (some (a, some s)) := by
  cases s <;> simp [mk, seek, h]

/-- The search goes through a place if the key is on the side of it at every node on the way. -/
theorem seek_plug {dir : α → Option Side} (h : ∀ f ∈ c, dir f.a = some f.side) (t : BinTree α) :
    seek dir (plug c t) = (seek dir t).or (c.head?.map fun f => (f.a, some f.side)) := by
  induction c generalizing t with
  | nil => simp
  | cons f c ih =>
    rw [plug_cons, ih (fun g hg => h g (by simp [hg])), seek_mk (h f (by simp))]
    simp

/-! ## Mending -/

/-- The balance of the node `a` after a double rotation on the side `s`, from the balance of the new root. -/
def anchorBal (s : Side) (b : Option Side) : Option Side := if b = some s.flip then some s else none

/-- The balance of the old root after a double rotation on the side `s`, from the balance of the new root. -/
def rootBal (s : Side) (b : Option Side) : Option Side := if b = some s then some s.flip else none

/-- The way up from a place whose tree `t` has become higher: the tree in the end, and whether the whole is higher. -/
inductive Grown : List (Frame α) → BinTree α → BinTree α → Bool → Prop
  | top (t : BinTree α) : Grown [] t t true
  | up {s a u c} {t t' : BinTree α} {g} (h : Grown c (mk s t a (some s) u) t' g) : Grown (⟨s, a, none, u⟩ :: c) t t' g
  | even {s a u c} (t : BinTree α) : Grown (⟨s, a, some s.flip, u⟩ :: c) t (plug c (mk s t a none u)) false
  | single {s r c} {B C D : BinTree α} (a : α) :
    Grown (⟨s, r, some s, D⟩ :: c) (mk s B a (some s) C) (plug c (mk s B a none (mk s C r none D))) false
  | double {s r c} {B C D E : BinTree α} (a n : α) (b : Option Side) :
    Grown (⟨s, r, some s, D⟩ :: c) (mk s B a (some s.flip) (mk s C n b E))
      (plug c (mk s (mk s B a (anchorBal s b) C) n none (mk s E r (rootBal s b) D))) false

/-- The way up from a place whose tree `t` has become lower: the tree in the end, and whether the whole is lower. -/
inductive Shrunk : List (Frame α) → BinTree α → BinTree α → Bool → Prop
  | top (t : BinTree α) : Shrunk [] t t true
  | even {s a u c} (t : BinTree α) : Shrunk (⟨s, a, none, u⟩ :: c) t (plug c (mk s t a (some s.flip) u)) false
  | up {s a u c} {t t' : BinTree α} {g} (h : Shrunk c (mk s t a none u) t' g) : Shrunk (⟨s, a, some s, u⟩ :: c) t t' g
  | single {s r c} {t t' B C : BinTree α} {g} (a : α)
    (h : Shrunk c (mk s B a none (mk s C r none t)) t' g) :
    Shrunk (⟨s.flip, r, some s, mk s B a (some s) C⟩ :: c) t t' g
  | stop {s r c} {B C : BinTree α} (a : α) (t : BinTree α) :
    Shrunk (⟨s.flip, r, some s, mk s B a none C⟩ :: c) t
      (plug c (mk s B a (some s.flip) (mk s C r (some s) t))) false
  | double {s r c} {t t' B C E : BinTree α} {g} (a n : α) (b : Option Side)
    (h : Shrunk c (mk s (mk s B a (anchorBal s b) C) n none (mk s E r (rootBal s b) t)) t' g) :
    Shrunk (⟨s.flip, r, some s, mk s B a (some s.flip) (mk s C n b E)⟩ :: c) t t' g

theorem toList_single (s : Side) (B C D : BinTree α) (a r : α) (bA bR bA' bR' : Option Side) :
    (mk s B a bA (mk s C r bR D)).toList = (mk s (mk s B a bA' C) r bR' D).toList := by
  cases s <;> simp [mk, toList]

theorem toList_double (s : Side) (B C D E : BinTree α) (a n r : α) (bA bN bR bA' bN' bR' : Option Side) :
    (mk s (mk s B a bA C) n bN (mk s E r bR D)).toList = (mk s (mk s B a bA' (mk s C n bN' E)) r bR' D).toList := by
  cases s <;> simp [mk, toList]

theorem toList_bal (s : Side) (t u : BinTree α) (a : α) (b b' : Option Side) : (mk s t a b u).toList = (mk s t a b' u).toList := by
  cases s <;> rfl

/-- The two subtrees of the new root after a double rotation are of the same height. -/
theorem avl_doubled {B C D E : BinTree α} {b : Option Side} (a n r : α) (hB : B.Avl) (hC : C.Avl) (hE : E.Avl) (hD : D.Avl)
    (hfit : Fits s b C.height E.height) (hm : max C.height E.height = B.height) (hBD : D.height = B.height) :
    (mk s (mk s B a (anchorBal s b) C) n none (mk s E r (rootBal s b) D)).Avl := by
  simp only [avl_mk, height_mk]
  have hs := s.flip_ne
  refine ⟨⟨hB, hC, ?_⟩, ⟨hE, hD, ?_⟩, ?_⟩
  · rcases b with _ | s'
    · simp only [Fits, anchorBal, reduceCtorEq, if_false] at hfit ⊢
      omega
    · rcases s.eq_or_flip s' with rfl | rfl <;> simp [Fits, anchorBal, hs, hs.symm] at hfit ⊢ <;> omega
  · rcases b with _ | s'
    · simp only [Fits, rootBal, reduceCtorEq, if_false] at hfit ⊢
      omega
    · rcases s.eq_or_flip s' with rfl | rfl <;> simp [Fits, rootBal, hs] at hfit ⊢ <;> omega
  · simp only [Fits]
    omega

/-- A subtree that has become higher is mended. -/
theorem Grown.spec {h : Nat} (hg : Grown c t t' g) (hc : AvlCtx c h) (ht : t.Avl) (hh : t.height = h + 1) :
    t'.Avl ∧ t'.height = ctxHeight c h + g.toNat ∧ t'.toList = (plug c t).toList := by
  induction hg generalizing h with
  | top t => exact ⟨ht, hh, rfl⟩
  | @up s a u c t t' g _ ih =>
    obtain ⟨hu, hfit, hc⟩ := hc
    have hfit : h = u.height := hfit
    obtain ⟨h₁, h₂, h₃⟩ := ih (h := max h u.height + 1) hc (by
      rw [avl_mk]
      refine ⟨ht, hu, ?_⟩
      simp only [Fits, if_pos]
      omega) (by rw [height_mk]; omega)
    refine ⟨h₁, h₂, h₃.trans ?_⟩
    exact toList_plug_congr c (toList_bal s _ _ _ _ _)
  | @even s a u c t =>
    obtain ⟨hu, hfit, hc⟩ := hc
    have hfit : u.height = h + 1 := by simpa [Fits, Side.flip_ne] using hfit
    refine ⟨?_, ?_, toList_plug_congr c (toList_bal s _ _ _ _ _)⟩
    · rw [avl_plug, avl_mk, height_mk]
      have : max t.height u.height + 1 = max h u.height + 1 := by omega
      rw [this]
      exact ⟨⟨ht, hu, by simp only [Fits]; omega⟩, hc⟩
    · rw [height_plug, height_mk]
      have : max t.height u.height + 1 = max h u.height + 1 := by omega
      rw [this]
      rfl
  | @single s r c B C D a =>
    obtain ⟨hD, hfit, hc⟩ := hc
    have hfit : h = D.height + 1 := by simpa [Fits] using hfit
    simp only [avl_mk, height_mk, Fits, if_pos] at ht hh
    obtain ⟨hB, hC, hBC⟩ := ht
    have hheight : (mk s B a none (mk s C r none D)).height = max h D.height + 1 := by
      simp only [height_mk]
      omega
    refine ⟨?_, ?_, toList_plug_congr c (toList_single s _ _ _ _ _ _ _ _ _)⟩
    · rw [avl_plug, hheight]
      refine ⟨?_, hc⟩
      simp only [avl_mk, height_mk, Fits]
      exact ⟨hB, ⟨hC, hD, by omega⟩, by omega⟩
    · rw [height_plug, hheight]
      rfl
  | @double s r c B C D E a n b =>
    obtain ⟨hD, hfit, hc⟩ := hc
    have hfit : h = D.height + 1 := by simpa [Fits] using hfit
    simp only [avl_mk, height_mk] at ht hh
    obtain ⟨hB, ⟨hC, hE, hCE⟩, hBN⟩ := ht
    have hBN : max C.height E.height + 1 = B.height + 1 := by simpa [Fits, Side.flip_ne] using hBN
    have hheight : (mk s (mk s B a (anchorBal s b) C) n none (mk s E r (rootBal s b) D)).height = max h D.height + 1 := by
      simp only [height_mk]
      omega
    refine ⟨?_, ?_, toList_plug_congr c (toList_double s _ _ _ _ _ _ _ _ _ _ _ _ _)⟩
    · rw [avl_plug, hheight]
      exact ⟨avl_doubled a n r hB hC hE hD hCE (by omega) (by omega), hc⟩
    · rw [height_plug, hheight]
      rfl

/-- A subtree that has become lower is mended. -/
theorem Shrunk.spec {h : Nat} (hg : Shrunk c t t' g) (hc : AvlCtx c (h + 1)) (ht : t.Avl) (hh : t.height = h) :
    t'.Avl ∧ t'.height + g.toNat = ctxHeight c (h + 1) ∧ t'.toList = (plug c t).toList := by
  induction hg generalizing h with
  | top t => exact ⟨ht, by rw [hh]; rfl, rfl⟩
  | @even s a u c t =>
    obtain ⟨hu, hfit, hc⟩ := hc
    have hfit : h + 1 = u.height := hfit
    have hheight : (mk s t a (some s.flip) u).height = max (h + 1) u.height + 1 := by
      rw [height_mk]
      omega
    refine ⟨?_, ?_, toList_plug_congr c (toList_bal s _ _ _ _ _)⟩
    · rw [avl_plug, hheight, avl_mk]
      exact ⟨⟨ht, hu, by simp only [Fits, Side.flip_ne, if_false]; omega⟩, hc⟩
    · rw [height_plug, hheight]
      rfl
  | @up s a u c t t' g _ ih =>
    obtain ⟨hu, hfit, hc⟩ := hc
    have hfit : h + 1 = u.height + 1 := by simpa [Fits] using hfit
    have hmax : max (h + 1) u.height + 1 = (h + 1) + 1 := by omega
    rw [hmax] at hc
    obtain ⟨h₁, h₂, h₃⟩ := ih (h := h + 1) hc (by
      rw [avl_mk]
      exact ⟨ht, hu, by simp only [Fits]; omega⟩) (by rw [height_mk]; omega)
    refine ⟨h₁, ?_, h₃.trans (toList_plug_congr c (toList_bal s _ _ _ _ _))⟩
    rw [h₂, ctxHeight, hmax]
  | @single s r c t t' B C g a _ ih =>
    obtain ⟨hu, hfit, hc⟩ := hc
    rw [fits_flip] at hfit
    simp only [avl_mk, height_mk, Fits, if_pos] at hu hfit hc
    obtain ⟨hB, hC, hBC⟩ := hu
    have hmax : max (h + 1) (max B.height C.height + 1) + 1 = (h + 2) + 1 := by omega
    rw [hmax] at hc
    obtain ⟨h₁, h₂, h₃⟩ := ih (h := h + 2) hc (by
      simp only [avl_mk, height_mk, Fits]
      exact ⟨hB, ⟨hC, ht, by omega⟩, by omega⟩) (by simp only [height_mk]; omega)
    refine ⟨h₁, ?_, h₃.trans ?_⟩
    · rw [h₂, ctxHeight, height_mk, hmax]
    · refine toList_plug_congr c ?_
      rw [mk_flip]
      exact toList_single s _ _ _ _ _ _ _ _ _
  | @stop s r c B C a t =>
    obtain ⟨hu, hfit, hc⟩ := hc
    rw [fits_flip] at hfit
    simp only [avl_mk, height_mk, Fits, if_pos] at hu hfit hc
    obtain ⟨hB, hC, hBC⟩ := hu
    have hheight : (mk s B a (some s.flip) (mk s C r (some s) t)).height = max (h + 1) (max B.height C.height + 1) + 1 := by
      simp only [height_mk]
      omega
    refine ⟨?_, ?_, ?_⟩
    · rw [avl_plug, hheight]
      refine ⟨?_, hc⟩
      simp only [avl_mk, height_mk, Fits, if_pos, Side.flip_ne, if_false]
      exact ⟨hB, ⟨hC, ht, by omega⟩, by omega⟩
    · rw [height_plug, hheight, ctxHeight, height_mk]
      rfl
    · refine toList_plug_congr c ?_
      rw [mk_flip]
      exact toList_single s _ _ _ _ _ _ _ _ _
  | @double s r c t t' B C E g a n b _ ih =>
    obtain ⟨hu, hfit, hc⟩ := hc
    rw [fits_flip] at hfit
    simp only [avl_mk, height_mk] at hu hfit hc
    obtain ⟨hB, ⟨hC, hE, hCE⟩, hBN⟩ := hu
    have hBN : max C.height E.height + 1 = B.height + 1 := by simpa [Fits, Side.flip_ne] using hBN
    have hfit : max B.height (max C.height E.height + 1) + 1 = (h + 1) + 1 := by simpa [Fits] using hfit
    have hmax : max (h + 1) (max B.height (max C.height E.height + 1) + 1) + 1 = (h + 2) + 1 := by omega
    rw [hmax] at hc
    obtain ⟨h₁, h₂, h₃⟩ := ih (h := h + 2) hc (avl_doubled a n r hB hC hE ht hCE (by omega) (by omega))
      (by simp only [height_mk]; omega)
    refine ⟨h₁, ?_, h₃.trans ?_⟩
    · rw [h₂, ctxHeight, height_mk, height_mk, hmax]
    · refine toList_plug_congr c ?_
      rw [mk_flip]
      exact toList_double s _ _ _ _ _ _ _ _ _ _ _ _ _

/-! ## Directions -/

/-- Followed from the top, the directions of the nodes lead to the node `n`. -/
def Points (dir : α → Side) (n : α) : BinTree α → Prop
  | nil => False
  | node l a _ r => a = n ∨ (dir a = .left ∧ Points dir n l) ∨ (dir a = .right ∧ Points dir n r)

/-- The directions of the nodes on the way up lead down to the place. -/
def Directs (dir : α → Side) (c : List (Frame α)) : Prop := ∀ f ∈ c, dir f.a = f.side

theorem points_mk {dir : α → Side} (s : Side) (t : BinTree α) (a : α) (b : Option Side) (u : BinTree α) :
    Points dir n (mk s t a b u) ↔ a = n ∨ (dir a = s ∧ Points dir n t) ∨ (dir a = s.flip ∧ Points dir n u) := by
  cases s
  · rfl
  · simp only [mk, Points, Side.flip]
    tauto

/-- A tree at a place that the directions lead to. -/
theorem points_plug {dir : α → Side} (hc : Directs dir c) (ht : Points dir n t) : Points dir n (plug c t) := by
  induction c generalizing t with
  | nil => exact ht
  | cons f c ih =>
    refine ih (fun f' hf' => hc f' (by simp [hf'])) ?_
    rw [points_mk]
    exact .inr (.inl ⟨hc f (by simp), ht⟩)

/-- The place to which the directions lead. -/
theorem Points.place {dir : α → Side} (h : Points dir n t) : ∃ c l b r, t = plug c (node l n b r) ∧ Directs dir c := by
  induction t with
  | nil => exact absurd h (by simp [Points])
  | node l a b r ihl ihr =>
    rcases h with rfl | ⟨hd, h⟩ | ⟨hd, h⟩
    · exact ⟨[], l, b, r, rfl, by simp [Directs]⟩
    · obtain ⟨c, l', b', r', rfl, hc⟩ := ihl h
      refine ⟨c ++ [⟨.left, a, b, r⟩], l', b', r', by rw [plug_append]; rfl, ?_⟩
      intro f hf
      rcases List.mem_append.1 hf with hf | hf
      · exact hc f hf
      · obtain rfl := List.mem_singleton.1 hf
        exact hd
    · obtain ⟨c, l', b', r', rfl, hc⟩ := ihr h
      refine ⟨c ++ [⟨.right, a, b, l⟩], l', b', r', by rw [plug_append]; rfl, ?_⟩
      intro f hf
      rcases List.mem_append.1 hf with hf | hf
      · exact hc f hf
      · obtain rfl := List.mem_singleton.1 hf
        exact hd

/-- A root that is not the node and is out of balance is higher where its direction leads. -/
def RootDirects (dir : α → Side) (n : α) : BinTree α → Prop
  | nil => True
  | node _ a b _ => ∀ s, b = some s → a ≠ n ∧ dir a = s

theorem rootDirects_mk {dir : α → Side} (s : Side) (t : BinTree α) (a : α) (b : Option Side) (u : BinTree α) :
    RootDirects dir n (mk s t a b u) ↔ ∀ s', b = some s' → a ≠ n ∧ dir a = s' := by
  cases s <;> rfl

/-- After an insertion is mended, the directions still lead to the new node. -/
theorem Grown.points {dir : α → Side} (hg : Grown c t t' g)
    (hc : Directs dir c) (hn : ∀ f ∈ c, f.a ≠ n) (ht : Points dir n t) (hr : RootDirects dir n t) : Points dir n t' := by
  induction hg with
  | top t => exact ht
  | @up s a u c t t' g _ ih =>
    have hd : dir a = s := hc ⟨s, a, none, u⟩ (by simp)
    refine ih (fun f hf => hc f (by simp [hf])) (fun f hf => hn f (by simp [hf])) ?_ ?_
    · rw [points_mk]
      exact .inr (.inl ⟨hd, ht⟩)
    · rw [rootDirects_mk]
      rintro s' hs'
      obtain rfl := Option.some.inj hs'
      exact ⟨hn ⟨s, a, none, u⟩ (by simp), hd⟩
  | @even s a u c t =>
    refine points_plug (fun f hf => hc f (by simp [hf])) ?_
    rw [points_mk]
    exact .inr (.inl ⟨hc ⟨s, a, some s.flip, u⟩ (by simp), ht⟩)
  | @single s r c B C D a =>
    refine points_plug (fun f hf => hc f (by simp [hf])) ?_
    rw [rootDirects_mk] at hr
    rw [points_mk] at ht ⊢
    obtain ⟨hne, hd⟩ := hr s rfl
    rcases ht with h | h | h
    · exact absurd h hne
    · exact .inr (.inl h)
    · exact absurd (h.1.symm.trans hd) s.flip_ne
  | @double s r c B C D E a n' b =>
    refine points_plug (fun f hf => hc f (by simp [hf])) ?_
    have hdr : dir r = s := hc ⟨s, r, some s, D⟩ (by simp)
    rw [rootDirects_mk] at hr
    obtain ⟨hne, hd⟩ := hr s.flip rfl
    simp only [points_mk] at ht ⊢
    rcases ht with h | h | ⟨-, h⟩
    · exact absurd h hne
    · exact absurd (hd.symm.trans h.1) s.flip_ne
    · rcases h with h | ⟨hn', h⟩ | ⟨hn', h⟩
      · exact .inl h
      · exact .inr (.inl ⟨hn', .inr (.inr ⟨hd, h⟩)⟩)
      · exact .inr (.inr ⟨hn', .inr (.inl ⟨hdr, h⟩)⟩)

end BinTree

end BalTree
