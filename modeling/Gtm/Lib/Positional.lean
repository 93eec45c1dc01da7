import Mathlib

/-!
# Positional fractions

A list of digits `d₁ d₂ … dₙ` in base `B` denotes the fraction `0.d₁d₂…dₙ`. On digit strings without a trailing zero the
lexicographic order is the order of the fractions, so such a string is determined by its fraction. `Normal` adds a decimal
exponent: a positive number has one normal form in each base, and normal forms compare by exponent first and digits second.
-/

namespace Positional

/-- The fraction `0.d₁d₂…dₙ` in base `B`. -/
def frac (B : ℕ) : List ℕ → ℚ
  | [] => 0
  | d :: ds => (d + frac B ds) / B

/-- Every digit is below the base. -/
def Digits (B : ℕ) (ds : List ℕ) : Prop := ∀ d ∈ ds, d < B

/-- The last digit, if there is one, is not zero. -/
def Trimmed (ds : List ℕ) : Prop := ds.getLast? ≠ some 0

@[simp] theorem frac_nil (B : ℕ) : frac B [] = 0 := rfl

@[simp] theorem frac_cons (B d : ℕ) (ds : List ℕ) : frac B (d :: ds) = (d + frac B ds) / B := rfl

@[simp] theorem digits_nil (B : ℕ) : Digits B [] := by simp [Digits]

variable {B d : ℕ} {ds es ds' : List ℕ} {q : ℚ} {e' : ℤ}

@[simp] theorem digits_cons : Digits B (d :: ds) ↔ d < B ∧ Digits B ds := by simp [Digits]

@[simp] theorem digits_append : Digits B (ds ++ es) ↔ Digits B ds ∧ Digits B es := by
  simp only [Digits, List.mem_append]
  exact ⟨fun h => ⟨fun d hd => h d (Or.inl hd), fun d hd => h d (Or.inr hd)⟩, fun h d hd => hd.elim (h.1 d) (h.2 d)⟩

theorem Trimmed.tail (h : Trimmed (d :: ds)) : Trimmed ds := by
  intro hz
  apply h
  simp [List.getLast?_cons, hz]

@[simp] theorem trimmed_nil : Trimmed [] := by simp [Trimmed]

@[simp] theorem trimmed_singleton : Trimmed [d] ↔ d ≠ 0 := by simp [Trimmed]

/-- A trimmed string stays trimmed behind any digits when it is not empty. -/
theorem Trimmed.append (h : Trimmed es) (hne : es ≠ []) (ds : List ℕ) : Trimmed (ds ++ es) := by
  unfold Trimmed
  rw [List.getLast?_append_of_ne_nil _ hne]
  exact h

theorem frac_nonneg (B : ℕ) (ds : List ℕ) : 0 ≤ frac B ds := by
  induction ds with
  | nil => simp
  | cons d ds ih =>
    rw [frac_cons]
    positivity

theorem frac_lt_one (hB : 0 < B) (h : Digits B ds) : frac B ds < 1 := by
  induction ds with
  | nil => simp
  | cons d ds ih =>
    obtain ⟨hd, hds⟩ := digits_cons.mp h
    have hd' : (d : ℚ) + 1 ≤ B := by exact_mod_cast hd
    have hB' : (0 : ℚ) < B := by exact_mod_cast hB
    rw [frac_cons, div_lt_one hB']
    linarith [ih hds]

theorem frac_pos (hB : 0 < B) (h : Trimmed ds) (hne : ds ≠ []) : 0 < frac B ds := by
  have hB' : (0 : ℚ) < B := by exact_mod_cast hB
  induction ds with
  | nil => exact absurd rfl hne
  | cons d ds ih =>
    apply div_pos _ hB'
    cases ds with
    | nil =>
      have hd : d ≠ 0 := trimmed_singleton.mp h
      have : (0 : ℚ) < d := by exact_mod_cast Nat.pos_of_ne_zero hd
      simpa using this
    | cons e ds =>
      have := ih h.tail (by simp)
      positivity

/-- A larger leading digit gives a larger fraction, whatever follows. -/
theorem frac_cons_lt (hB : 0 < B) {e : ℕ} (hds : Digits B ds) (h : d < e) : frac B (d :: ds) < frac B (e :: es) := by
  have hB' : (0 : ℚ) < B := by exact_mod_cast hB
  have h' : (d : ℚ) + 1 ≤ e := by exact_mod_cast h
  rw [frac_cons, frac_cons, div_lt_div_iff_of_pos_right hB']
  linarith [frac_lt_one hB hds, frac_nonneg B es]

/-- On digit strings without a trailing zero the order of the fractions is the lexicographic order. -/
theorem frac_lt_iff (hB : 0 < B) (hds : Digits B ds) (hes : Digits B es) (td : Trimmed ds)
    (te : Trimmed es) : frac B ds < frac B es ↔ ds < es := by
  have hB' : (0 : ℚ) < B := by exact_mod_cast hB
  induction ds generalizing es with
  | nil =>
    cases es with
    | nil => simp
    | cons e es => simp [-frac_cons, frac_pos hB te]
  | cons d ds ih =>
    cases es with
    | nil => simp [-frac_cons, frac_nonneg]
    | cons e es =>
      obtain ⟨-, hds'⟩ := digits_cons.mp hds
      obtain ⟨-, hes'⟩ := digits_cons.mp hes
      rw [List.cons_lt_cons_iff]
      rcases lt_trichotomy d e with h | rfl | h
      · simp only [h, true_or, iff_true]
        exact frac_cons_lt hB hds' h
      · have hrest := ih hds' hes' td.tail te.tail
        rw [frac_cons, frac_cons, div_lt_div_iff_of_pos_right hB']
        simpa using hrest
      · simp only [h.not_gt, h.ne', false_and, or_self, iff_false]
        exact (frac_cons_lt hB hes' h).le.not_gt

theorem frac_append (B : ℕ) (ds es : List ℕ) : frac B (ds ++ es) = frac B ds + frac B es / B ^ ds.length := by
  induction ds with
  | nil => simp
  | cons d ds ih =>
    rw [List.cons_append, frac_cons, ih, frac_cons, List.length_cons]
    field_simp
    ring

@[simp] theorem frac_replicate_zero (B n : ℕ) : frac B (List.replicate n 0) = 0 := by
  induction n with
  | zero => rfl
  | succ n ih => simp [List.replicate_succ, ih]

/-! ## Dropping trailing zeros -/

/-- The digit string without its trailing zeros. -/
def trim : List ℕ → List ℕ
  | [] => []
  | d :: ds => if ∀ x ∈ d :: ds, x = 0 then [] else d :: trim ds

theorem trim_of_zeros (h : ∀ x ∈ ds, x = 0) : trim ds = [] := by
  cases ds with
  | nil => rfl
  | cons d ds => rw [trim, if_pos h]

theorem trim_cons_of_ne (h : ¬ ∀ x ∈ d :: ds, x = 0) : trim (d :: ds) = d :: trim ds := by
  rw [trim, if_neg h]

/-- A digit string is its trimmed form followed by zeros. -/
theorem exists_trim_append (ds : List ℕ) : ∃ n, ds = trim ds ++ List.replicate n 0 := by
  induction ds with
  | nil => exact ⟨0, rfl⟩
  | cons d ds ih =>
    by_cases h : ∀ x ∈ d :: ds, x = 0
    · exact ⟨(d :: ds).length, by rw [trim_of_zeros h, List.nil_append]; exact List.eq_replicate_of_mem h⟩
    · obtain ⟨n, hn⟩ := ih
      exact ⟨n, by rw [trim_cons_of_ne h, List.cons_append, ← hn]⟩

theorem trim_trimmed (ds : List ℕ) : Trimmed (trim ds) := by
  induction ds with
  | nil => exact trimmed_nil
  | cons d ds ih =>
    by_cases h : ∀ x ∈ d :: ds, x = 0
    · rw [trim_of_zeros h]
      exact trimmed_nil
    · rw [trim_cons_of_ne h]
      by_cases hnil : trim ds = []
      · rw [hnil, trimmed_singleton]
        rintro rfl
        apply h
        obtain ⟨n, hn⟩ := exists_trim_append ds
        rw [hnil] at hn
        intro x hx
        rcases List.mem_cons.mp hx with rfl | hx
        · rfl
        · rw [hn] at hx
          exact List.eq_of_mem_replicate hx
      · exact ih.append hnil [d]

/-- Digits in front of a string that is not all zeros are kept. -/
theorem trim_append (ds : List ℕ) (h : trim es ≠ []) : trim (ds ++ es) = ds ++ trim es := by
  induction ds with
  | nil => rfl
  | cons d ds ih =>
    have hne : ¬ ∀ x ∈ d :: (ds ++ es), x = 0 := fun hz => h (trim_of_zeros fun x hx => hz x (by simp [hx]))
    rw [List.cons_append, trim_cons_of_ne hne, ih, List.cons_append]

theorem frac_trim (B : ℕ) (ds : List ℕ) : frac B (trim ds) = frac B ds := by
  obtain ⟨n, hn⟩ := exists_trim_append ds
  conv_rhs => rw [hn, frac_append, frac_replicate_zero, zero_div, add_zero]

theorem Digits.trim (h : Digits B ds) : Digits B (trim ds) := by
  obtain ⟨n, hn⟩ := exists_trim_append ds
  rw [hn] at h
  exact (digits_append.mp h).1

theorem frac_eq_zero_iff (hB : 0 < B) : frac B ds = 0 ↔ ∀ x ∈ ds, x = 0 := by
  constructor
  · intro h x hx
    obtain ⟨n, hn⟩ := exists_trim_append ds
    have hnil : trim ds = [] := by
      by_contra hne
      have := frac_pos hB (trim_trimmed ds) hne
      rw [frac_trim, h] at this
      exact lt_irrefl _ this
    rw [hn, hnil] at hx
    exact List.eq_of_mem_replicate hx
  · intro h
    rw [← frac_trim, trim_of_zeros h, frac_nil]

/-! ## Whole numbers -/

/-- The natural number a digit string denotes, the first digit being the most significant, behind the digits of `a`. -/
def whole (B : ℕ) (ds : List ℕ) (a : ℕ) : ℕ := ds.foldl (fun a d => a * B + d) a

@[simp] theorem whole_nil (B a : ℕ) : whole B [] a = a := rfl

@[simp] theorem whole_cons (B d a : ℕ) (ds : List ℕ) : whole B (d :: ds) a = whole B ds (a * B + d) := rfl

theorem whole_append (B a : ℕ) (ds es : List ℕ) : whole B (ds ++ es) a = whole B es (whole B ds a) := by
  simp [whole]

/-- The whole number is the fraction scaled by the number of digits. -/
theorem whole_eq (hB : 0 < B) (ds : List ℕ) (a : ℕ) : (whole B ds a : ℚ) = (a + frac B ds) * B ^ ds.length := by
  induction ds generalizing a with
  | nil => simp
  | cons d ds ih =>
    rw [whole_cons, ih, frac_cons, List.length_cons]
    push_cast
    field_simp
    ring

/-! ## Numbers with a decimal exponent -/

/-- `q` is `0.d₁d₂…dₙ · 10 ^ e` with a leading decimal digit other than zero and no trailing zero. -/
structure Normal (B : ℕ) (e : ℤ) (ds : List ℕ) (q : ℚ) : Prop where
  digits : Digits B ds
  trimmed : Trimmed ds
  lead : 1 / 10 ≤ frac B ds
  value : q = frac B ds * 10 ^ e

theorem Normal.pos {e : ℤ} (h : Normal B e ds q) : 0 < q := by
  rw [h.value]
  exact mul_pos (lt_of_lt_of_le (by norm_num) h.lead) (by positivity)

theorem Normal.ne_nil {e : ℤ} (h : Normal B e ds q) : ds ≠ [] := by
  rintro rfl
  have := h.lead
  norm_num at this

/-- A smaller exponent makes a smaller number. -/
theorem Normal.lt_of_exp_lt (hB : 0 < B) {e : ℤ} {q' : ℚ} (h : Normal B e ds q) (h' : Normal B e' ds' q') (he : e < e') : q < q' := by
  have hlt := frac_lt_one hB h.digits
  have hpow : (10 : ℚ) ^ e ≤ 10 ^ (e' - 1) := zpow_le_zpow_right₀ (by norm_num) (by omega)
  have hstep : (1 / 10 : ℚ) * 10 ^ e' = 10 ^ (e' - 1) := by
    rw [zpow_sub_one₀ (by norm_num)]
    ring
  calc q = frac B ds * 10 ^ e := h.value
    _ < 1 * 10 ^ e := mul_lt_mul_of_pos_right hlt (by positivity)
    _ ≤ 10 ^ (e' - 1) := by rw [one_mul]; exact hpow
    _ = 1 / 10 * 10 ^ e' := hstep.symm
    _ ≤ frac B ds' * 10 ^ e' := mul_le_mul_of_nonneg_right h'.lead (by positivity)
    _ = q' := h'.value.symm

/-- Normal forms compare by exponent first and digits second. -/
theorem Normal.lt_iff (hB : 0 < B) {e : ℤ} {q' : ℚ} (h : Normal B e ds q)
    (h' : Normal B e' ds' q') : q < q' ↔ e < e' ∨ (e = e' ∧ ds < ds') := by
  rcases lt_trichotomy e e' with he | rfl | he
  · simp only [he, true_or, iff_true]
    exact h.lt_of_exp_lt hB h' he
  · have hpos : (0 : ℚ) < 10 ^ e := by positivity
    rw [h.value, h'.value, mul_lt_mul_iff_left₀ hpos, frac_lt_iff hB h.digits h'.digits h.trimmed h'.trimmed]
    simp
  · simp only [he.not_gt, he.ne', false_and, or_self, iff_false]
    exact (h'.lt_of_exp_lt hB h he).le.not_gt

/-- A number has one normal form in each base. -/
theorem Normal.unique (hB : 0 < B) {e : ℤ} (h : Normal B e ds q) (h' : Normal B e' ds' q) : e = e' ∧ ds = ds' := by
  have h1 := (h.lt_iff hB h').not.mp (lt_irrefl q)
  have h2 := (h'.lt_iff hB h).not.mp (lt_irrefl q)
  push Not at h1 h2
  obtain rfl : e = e' := le_antisymm h2.1 h1.1
  exact ⟨rfl, le_antisymm (h2.2 rfl) (h1.2 rfl)⟩

end Positional
