import Mathlib

/-!
# Numbers as lists of limbs

A list of limbs, the least significant one first, denotes a number in base `B`. The limbs below the base are the digits of the
number, and the quotient of a number by another can be estimated from their top limbs.
-/

namespace Limbs

/-- The number a list of limbs denotes in base `B`. -/
def val (B : ℤ) : List ℤ → ℤ
  | [] => 0
  | d :: ds => d + B * val B ds

/-- Every limb is a digit of base `B`. -/
def InRange (B : ℤ) (ds : List ℤ) : Prop := ∀ d ∈ ds, 0 ≤ d ∧ d < B

@[simp] theorem val_nil (B : ℤ) : val B [] = 0 := rfl

@[simp] theorem val_cons (B d : ℤ) (ds : List ℤ) : val B (d :: ds) = d + B * val B ds := rfl

@[simp] theorem inRange_nil (B : ℤ) : InRange B [] := by simp [InRange]

@[simp] theorem inRange_cons {B d : ℤ} {ds : List ℤ} : InRange B (d :: ds) ↔ (0 ≤ d ∧ d < B) ∧ InRange B ds := by
  simp [InRange]

theorem val_append (B : ℤ) (ds es : List ℤ) : val B (ds ++ es) = val B ds + B ^ ds.length * val B es := by
  induction ds with
  | nil => simp
  | cons d ds ih =>
    rw [List.cons_append, val_cons, ih, val_cons, List.length_cons]
    ring

theorem val_nonneg {B : ℤ} (hB : 0 ≤ B) {ds : List ℤ} (h : InRange B ds) : 0 ≤ val B ds := by
  induction ds with
  | nil => simp
  | cons d ds ih =>
    obtain ⟨hd, hds⟩ := inRange_cons.mp h
    have := mul_nonneg hB (ih hds)
    rw [val_cons]
    linarith [hd.1]

theorem val_lt {B : ℤ} (hB : 0 ≤ B) {ds : List ℤ} (h : InRange B ds) : val B ds < B ^ ds.length := by
  induction ds with
  | nil => simp
  | cons d ds ih =>
    obtain ⟨hd, hds⟩ := inRange_cons.mp h
    calc val B (d :: ds) = d + B * val B ds := val_cons B d ds
      _ < B + B * val B ds := by linarith [hd.2]
      _ = B * (val B ds + 1) := by ring
      _ ≤ B * B ^ ds.length := mul_le_mul_of_nonneg_left (ih hds) hB
      _ = B ^ (d :: ds).length := by rw [List.length_cons, pow_succ, mul_comm]

theorem val_zeros (B : ℤ) (n : ℕ) : val B (List.replicate n 0) = 0 := by
  induction n with
  | zero => rfl
  | succ n ih => rw [List.replicate_succ, val_cons, ih, mul_zero, zero_add]

theorem inRange_zeros {B : ℤ} (hB : 0 < B) (n : ℕ) : InRange B (List.replicate n 0) := by
  intro d hd
  rw [List.eq_of_mem_replicate hd]
  exact ⟨le_rfl, hB⟩

/-- A limb and a carry make up the number they were split from. -/
theorem tmod_add_tdiv (B x : ℤ) : x.tmod B + B * x.tdiv B = x := Int.tmod_add_mul_tdiv x B

theorem tdiv_tmod_range {B x : ℤ} (hB : 0 < B) (hx : 0 ≤ x) : 0 ≤ x.tdiv B ∧ 0 ≤ x.tmod B ∧ x.tmod B < B :=
  ⟨Int.tdiv_nonneg hx hB.le, Int.tmod_nonneg _ hx, Int.tmod_lt_of_pos _ hB⟩

/-! ## The estimate of a quotient digit -/

/-- Dividing the top of the dividend by the top of the divisor, `k` limbs being left off both, never gives too little. -/
theorem div_le_estimate {V X P v x : ℤ} (hP : 0 < P) (hV0 : 0 ≤ V) (hx : 0 < x) (hV : V < (v + 1) * P) (hX : x * P ≤ X) : V / X ≤ v / x := by
  have hX0 : 0 < X := lt_of_lt_of_le (mul_pos hx hP) hX
  rw [Int.le_ediv_iff_mul_le hx]
  have hq : 0 ≤ V / X := Int.ediv_nonneg hV0 hX0.le
  have h1 : V / X * x * P ≤ V := by
    calc V / X * x * P = V / X * (x * P) := by ring
      _ ≤ V / X * X := mul_le_mul_of_nonneg_left hX hq
      _ ≤ V := Int.ediv_mul_le V hX0.ne'
  have h2 : V / X * x * P < (v + 1) * P := lt_of_le_of_lt h1 hV
  have := lt_of_mul_lt_mul_right h2 hP.le
  omega

end Limbs
