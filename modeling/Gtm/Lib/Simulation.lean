import Mathlib

/-!
# Simulation of transition systems

Systems given by a partial step function, as `StateTransition` has them. Two ways to show that two systems get to the same
configurations: they take the same steps as long as an invariant holds, or each follows the steps of the other, possibly with more
or fewer steps of its own.
-/

namespace Simulation

open StateTransition Relation

variable {α β : Type*}

/-- A property that every step keeps holds in every configuration that is reached. -/
theorem invariant {f : α → Option α} {I : α → Prop} (hI : ∀ a b, I a → f a = some b → I b) {a b : α} (ha : I a)
    (h : Reaches f a b) : I b := by
  induction h with
  | refl => exact ha
  | tail _ hs ih => exact hI _ _ ih hs

/-- A system that takes the steps of another as long as the invariant holds reaches what the other reaches. -/
theorem reaches_of_step_eq {f g : α → Option α} {I : α → Prop} (hI : ∀ a b, I a → f a = some b → I b)
    (hfg : ∀ a, I a → f a = g a) {a b : α} (ha : I a) (h : Reaches f a b) : Reaches g a b := by
  induction h with
  | refl => exact ReflTransGen.refl
  | tail h' hs ih => exact ih.tail (by rw [← hfg _ (invariant hI ha h')]; exact hs)

/-- Two systems that take the same steps as long as the invariant holds reach the same configurations. -/
theorem reaches_iff_of_step_eq {f g : α → Option α} {I : α → Prop} (hI : ∀ a b, I a → f a = some b → I b)
    (hfg : ∀ a, I a → f a = g a) {a b : α} (ha : I a) : Reaches f a b ↔ Reaches g a b := by
  have hI' : ∀ a b, I a → g a = some b → I b := fun a b hia hg => hI a b hia (by rw [hfg a hia]; exact hg)
  exact ⟨reaches_of_step_eq hI hfg ha, reaches_of_step_eq hI' (fun a hia => (hfg a hia).symm) ha⟩

/-- Every step of `f` is followed by some steps of `g`, none included. -/
def Follows (f : α → Option α) (g : β → Option β) (R : α → β → Prop) : Prop :=
  ∀ a a' b, R a b → f a = some a' → ∃ b', Reaches g b b' ∧ R a' b'

/-- A system that follows another follows whole runs of it. -/
theorem Follows.reaches {f : α → Option α} {g : β → Option β} {R : α → β → Prop} (hs : Follows f g R) {a a' : α} {b : β}
    (hr : R a b) (h : Reaches f a a') : ∃ b', Reaches g b b' ∧ R a' b' := by
  induction h with
  | refl => exact ⟨b, ReflTransGen.refl, hr⟩
  | tail _ hstep ih =>
    obtain ⟨b₁, hb₁, hr₁⟩ := ih
    obtain ⟨b₂, hb₂, hr₂⟩ := hs _ _ _ hr₁ hstep
    exact ⟨b₂, hb₁.trans hb₂, hr₂⟩

end Simulation
