import Gtm.Mlk.Shrblk

/-!
# Who holds and who waits in a lock tree

A lock tree read as two lists: the owned nodes with their owners, and the nodes that are waited for with their queues, each under the
subscripts that lead to it.
-/

namespace Gtm

section LockTree

variable {σ : Type}

/-- The owners of a lock tree, under the nrefs that they own. -/
def ShrForest.holders : ShrForest σ → List (List σ × LockOwner)
  | .empty => []
  | .node d children rsib =>
    (if d.owner ≠ 0 then [([d.value], ⟨d.owner, d.auxowner⟩)] else []) ++
      (children.holders.map fun h => (d.value :: h.1, h.2)) ++ rsib.holders

/-- The queues of a lock tree, under the nrefs that are waited for. -/
def ShrForest.queues : ShrForest σ → List (List σ × List MlkPrcblk)
  | .empty => []
  | .node d children rsib =>
    (if d.pending ≠ [] then [([d.value], d.pending)] else []) ++
      (children.queues.map fun q => (d.value :: q.1, q.2)) ++ rsib.queues

theorem holders_node (d : MlkShrblk σ) (children rsib : ShrForest σ) :
    (ShrForest.node d children rsib).holders = (ShrForest.node d children .empty).holders ++ rsib.holders := by
  simp [ShrForest.holders]

theorem queues_node (d : MlkShrblk σ) (children rsib : ShrForest σ) :
    (ShrForest.node d children rsib).queues = (ShrForest.node d children .empty).queues ++ rsib.queues := by
  simp [ShrForest.queues]

/-- An owner is a process. -/
theorem owner_ne_zero {f : ShrForest σ} {h : List σ × LockOwner} (hh : h ∈ f.holders) : h.2.processId ≠ 0 := by
  induction f generalizing h with
  | empty => nomatch hh
  | node d children rsib ihc ihr =>
    rw [ShrForest.holders, List.mem_append, List.mem_append] at hh
    rcases hh with (hd | hc) | hr
    · split at hd
      · rename_i h0
        rw [List.mem_singleton.1 hd]
        exact h0
      · nomatch hd
    · obtain ⟨h', hh', rfl⟩ := List.mem_map.1 hc
      exact ihc (h := h') hh'
    · exact ihr hr

/-- A node that is deleted when it is unused leaves no one behind. -/
theorem isUnused_iff {d : MlkShrblk σ} {children : ShrForest σ} :
    d.isUnused children = true ↔ children = .empty ∧ d.owner = 0 ∧ d.pending = [] := by
  cases children <;> simp [MlkShrblk.isUnused, ShrForest.isEmpty, List.isEmpty_iff]

theorem holders_of_isUnused {d : MlkShrblk σ} {children rsib : ShrForest σ} (h : d.isUnused children = true) :
    (ShrForest.node d children rsib).holders = rsib.holders := by
  obtain ⟨rfl, ho, -⟩ := isUnused_iff.1 h
  simp [ShrForest.holders, ho]

theorem queues_of_isUnused {d : MlkShrblk σ} {children rsib : ShrForest σ} (h : d.isUnused children = true) :
    (ShrForest.node d children rsib).queues = rsib.queues := by
  obtain ⟨rfl, -, hp⟩ := isUnused_iff.1 h
  simp [ShrForest.queues, hp]

/-! ## Trees that get thinner -/

/-- The subscripts of a ring. -/
def ShrForest.tops : ShrForest σ → List σ
  | .empty => []
  | .node d _ rsib => d.value :: rsib.tops

/-- No two siblings have the same subscript. -/
def ShrForest.Distinct : ShrForest σ → Prop
  | .empty => True
  | .node d children rsib => d.value ∉ rsib.tops ∧ children.Distinct ∧ rsib.Distinct

/-- The first node is the second one, perhaps without its owner. -/
structure MlkShrblk.From (d' d : MlkShrblk σ) : Prop where
  value : d'.value = d.value
  owner : d'.owner ≠ 0 → d'.owner = d.owner ∧ d'.auxowner = d.auxowner

theorem MlkShrblk.From.refl (d : MlkShrblk σ) : d.From d := ⟨rfl, fun _ => ⟨rfl, rfl⟩⟩

theorem MlkShrblk.From.trans {d₁ d₂ d₃ : MlkShrblk σ} (h : d₁.From d₂) (h' : d₂.From d₃) : d₁.From d₃ :=
  ⟨h.value.trans h'.value, fun h0 => by
    obtain ⟨ho, ha⟩ := h.owner h0
    obtain ⟨ho', ha'⟩ := h'.owner (ho ▸ h0)
    exact ⟨ho.trans ho', ha.trans ha'⟩⟩

/-- The first tree is the second one without some nodes and some owners. -/
inductive Thinned : ShrForest σ → ShrForest σ → Prop where
  | empty : Thinned .empty .empty
  | drop {d : MlkShrblk σ} {children rsib rsib' : ShrForest σ} : Thinned rsib' rsib → Thinned rsib' (.node d children rsib)
  | keep {d d' : MlkShrblk σ} {children children' rsib rsib' : ShrForest σ} : d'.From d → Thinned children' children →
    Thinned rsib' rsib → Thinned (.node d' children' rsib') (.node d children rsib)

theorem Thinned.refl (f : ShrForest σ) : Thinned f f := by
  induction f with
  | empty => exact .empty
  | node d children rsib ihc ihr => exact .keep (.refl d) ihc ihr

theorem Thinned.holders {f f' : ShrForest σ} (h : Thinned f' f) : f'.holders ⊆ f.holders := by
  induction h with
  | empty => exact List.Subset.refl _
  | @drop d children rsib rsib' _ ih =>
    exact fun x hx => List.mem_append_right _ (ih hx)
  | @keep d d' children children' rsib rsib' hd _ _ ihc ihr =>
    intro x hx
    rw [ShrForest.holders, List.mem_append, List.mem_append] at hx ⊢
    rcases hx with (hx | hx) | hx
    · by_cases h0 : d'.owner = 0
      · simp [h0] at hx
      · obtain ⟨ho, ha⟩ := hd.owner h0
        rw [if_pos h0, ho, ha, hd.value] at hx
        rw [if_pos (ho ▸ h0)]
        exact .inl (.inl hx)
    · obtain ⟨y, hy, rfl⟩ := List.mem_map.1 hx
      exact .inl (.inr (List.mem_map.2 ⟨y, ihc hy, by rw [hd.value]⟩))
    · exact .inr (ihr hx)

theorem Thinned.tops {f f' : ShrForest σ} (h : Thinned f' f) : f'.tops ⊆ f.tops := by
  induction h with
  | empty => exact List.Subset.refl _
  | drop _ ih => exact fun x hx => List.mem_cons_of_mem _ (ih hx)
  | keep hd _ _ _ ihr =>
    rw [ShrForest.tops, hd.value]
    exact List.cons_subset_cons _ ihr

theorem Thinned.distinct {f f' : ShrForest σ} (h : Thinned f' f) (hf : f.Distinct) : f'.Distinct := by
  induction h with
  | empty => trivial
  | drop _ ih => exact ih hf.2.2
  | keep hd _ hr ihc ihr => exact ⟨fun hm => hf.1 (hd.value ▸ hr.tops hm), ihc hf.2.1, ihr hf.2.2⟩

end LockTree

end Gtm
