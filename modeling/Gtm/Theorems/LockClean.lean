import Gtm.Lemmas.LockTree

/-!
# Cleaning a lock tree

`mlk_shrclean` notes down the processes of the tree in a table of one slot for each residue of a pid, finds out which of them are dead,
and takes those out of the tree. Both walks leave out the last process of each queue, and a slot keeps the process it got last.
-/

namespace Gtm

section LockClean

variable {σ : Type}

/-! ## The table of processes -/

/-- The processes of a tree in the order in which `fill_pid_table` notes them down. -/
def ShrForest.noted : ShrForest σ → List Nat
  | .empty => []
  | .node d children rsib =>
    children.noted ++ (if d.owner ≠ 0 then [d.owner] else []) ++ d.pending.dropLast.map MlkPrcblk.processId ++ rsib.noted

/-- The slot of a process is its own: no process with the same residue is noted down after it. -/
def ShrForest.Noted (f : ShrForest σ) (pid : Nat) : Prop :=
  (f.noted.filter fun p => p % procTableSize = pid % procTableSize).getLast? = some pid

theorem notePending_eq (table : Nat → Nat) (q : List MlkPrcblk) :
    notePending table q = (q.dropLast.map MlkPrcblk.processId).foldl notePid table := by
  fun_induction notePending table q with
  | case1 table => rfl
  | case2 table p => rfl
  | case3 table p next hne ih =>
    cases next with
    | nil => exact absurd rfl (hne)
    | cons q next => rw [ih]; rfl

theorem fillPidTable_eq (f : ShrForest σ) (table : Nat → Nat) : fillPidTable f table = f.noted.foldl notePid table := by
  induction f generalizing table with
  | empty => rfl
  | node d children rsib ihc ihr =>
    rw [fillPidTable, ihr, notePending_eq, ShrForest.noted, List.foldl_append, List.foldl_append, List.foldl_append, ihc]
    split <;> rfl

/-- A slot holds the last process noted down in it. -/
theorem foldl_notePid (l : List Nat) (table : Nat → Nat) (i : Nat) :
    l.foldl notePid table i = ((l.filter fun p => p % procTableSize = i).getLast?).getD (table i) := by
  induction l using List.reverseRecOn with
  | nil => rfl
  | append_singleton l p ih =>
    by_cases hp : p % procTableSize = i
    · simp [notePid, hp]
    · simp [notePid, hp, Ne.symm hp, ih]

/-- The processes that `mlk_shrclean` finds dead. -/
theorem foundDead_iff (alive : Nat → Bool) (f : ShrForest σ) {pid : Nat} (h0 : pid ≠ 0) :
    foundDead (fillPidTable f fun _ => 0) (checkPids alive (fillPidTable f fun _ => 0)) pid = true ↔ f.Noted pid ∧ alive pid = false := by
  have hslot : fillPidTable f (fun _ => 0) (pid % procTableSize) = pid ↔ f.Noted pid := by
    rw [fillPidTable_eq, foldl_notePid, ShrForest.Noted]
    cases (f.noted.filter fun p => p % procTableSize = pid % procTableSize).getLast? with
    | none => simpa using Ne.symm h0
    | some p => simp
  simp only [foundDead, checkPids, Bool.and_eq_true, beq_iff_eq, bne_iff_ne, Bool.not_eq_true']
  rw [hslot]
  constructor
  · rintro ⟨hn, -, ha⟩
    rw [hslot.2 hn] at ha
    exact ⟨hn, ha⟩
  · rintro ⟨hn, ha⟩
    rw [hslot.2 hn]
    exact ⟨hn, h0, ha⟩

/-! ## The tree after it -/

/-- What is left of a queue: the processes that are not found dead, and the last one. -/
def keptQueue (dead : Nat → Bool) : List MlkPrcblk → List MlkPrcblk
  | [] => []
  | [p] => [p]
  | p :: next => if dead p.processId then keptQueue dead next else p :: keptQueue dead next

theorem prcblkDelete_clearPending (dead : Nat → Bool) {q : List MlkPrcblk} (h : ∀ p ∈ q, p.processId ≠ 0) :
    prcblkDelete 0 (clearPending dead q) = keptQueue dead q := by
  fun_induction keptQueue dead q with
  | case1 => rfl
  | case2 p => simp [clearPending, prcblkDelete, h p]
  | case3 p next hne hd ih =>
    rw [List.forall_mem_cons] at h
    rw [clearPending, prcblkDelete]
    · simp [h.1, hd, ih h.2]
    · exact hne
  | case4 p next hne hd ih =>
    rw [List.forall_mem_cons] at h
    rw [clearPending, prcblkDelete]
    · simp [h.1, hd, ih h.2]
    · exact hne

/-- The last process of a queue stays. -/
theorem mem_keptQueue (dead : Nat → Bool) {q : List MlkPrcblk} {p : MlkPrcblk} :
    p ∈ keptQueue dead q ↔ (p ∈ q.dropLast ∧ dead p.processId = false) ∨ q.getLast? = some p := by
  fun_induction keptQueue dead q with
  | case1 => simp
  | case2 x =>
    simp only [List.mem_singleton, List.dropLast_singleton, List.not_mem_nil, false_and, false_or, List.getLast?_singleton,
      Option.some.injEq]
    exact eq_comm
  | case3 x next hne hd ih =>
    obtain ⟨y, next, rfl⟩ := List.exists_cons_of_ne_nil hne
    rw [ih, List.dropLast_cons_cons, List.mem_cons]
    constructor
    · rintro (⟨hm, hp⟩ | hl)
      · exact .inl ⟨.inr hm, hp⟩
      · exact .inr hl
    · rintro (⟨rfl | hm, hp⟩ | hl)
      · rw [hd] at hp
        nomatch hp
      · exact .inl ⟨hm, hp⟩
      · exact .inr hl
  | case4 x next hne hd ih =>
    obtain ⟨y, next, rfl⟩ := List.exists_cons_of_ne_nil hne
    rw [List.mem_cons, ih, List.dropLast_cons_cons, List.mem_cons]
    constructor
    · rintro (rfl | ⟨hm, hp⟩ | hl)
      · exact .inl ⟨.inl rfl, by simpa using hd⟩
      · exact .inl ⟨.inr hm, hp⟩
      · exact .inr hl
    · rintro (⟨rfl | hm, hp⟩ | hl)
      · exact .inl rfl
      · exact .inr (.inl ⟨hm, hp⟩)
      · exact .inr (.inr hl)

/-- The live processes of a queue stay in their order. -/
theorem filter_keptQueue {dead alive : Nat → Bool} (h : ∀ pid, dead pid = true → alive pid = false) (q : List MlkPrcblk) :
    (keptQueue dead q).filter (fun p => alive p.processId) = q.filter (fun p => alive p.processId) := by
  fun_induction keptQueue dead q with
  | case1 => rfl
  | case2 p => rfl
  | case3 p next hne hd ih => rw [ih, List.filter_cons_of_neg (by simp [h _ hd])]
  | case4 p next hne hd ih => rw [List.filter_cons, List.filter_cons, ih]

/-- What `clean_pids` leaves of a node. -/
theorem cleanNode_spec (dead : Nat → Bool) {d : MlkShrblk σ} (ctl : MlkCtl) (h : ∀ p ∈ d.pending, p.processId ≠ 0) :
    (cleanNode dead d ctl).1.value = d.value ∧ (cleanNode dead d ctl).1.pending = keptQueue dead d.pending ∧
    (cleanNode dead d ctl).1.auxowner = d.auxowner ∧
    (cleanNode dead d ctl).1.owner = if dead d.owner then 0 else d.owner := by
  have hq := prcblkDelete_clearPending dead h
  unfold cleanNode
  by_cases h0 : d.owner = 0
  · simp [mlkPrcblkDelete, MlkShrblk.setPending, hq, h0]
  · by_cases hd : dead d.owner = true
    · simp [mlkPrcblkDelete, MlkShrblk.setPending, hq, hd]
    · simp [mlkPrcblkDelete, MlkShrblk.setPending, hq, hd, h0]

/-- Every process that waits in the tree is one. -/
def ShrForest.Waiters (f : ShrForest σ) : Prop :=
  ∀ q ∈ f.queues, ∀ p ∈ q.2, p.processId ≠ 0

/-- The processes that wait for the parts of a tree. -/
theorem ShrForest.Waiters.parts {d : MlkShrblk σ} {children rsib : ShrForest σ} (h : (ShrForest.node d children rsib).Waiters) :
    (∀ p ∈ d.pending, p.processId ≠ 0) ∧ children.Waiters ∧ rsib.Waiters := by
  refine ⟨fun p hp => ?_, fun q hq => ?_, fun q hq => ?_⟩
  · refine h ([d.value], d.pending) ?_ p hp
    have hne : d.pending ≠ [] := List.ne_nil_of_mem hp
    simp [ShrForest.queues, hne]
  · exact h (d.value :: q.1, q.2) (by simp [ShrForest.queues, hq])
  · exact h q (by simp [ShrForest.queues, hq])

/-- The owners after `clean_pids` are those that are not found dead, and the queues are those before without the processes found dead,
and without the queues that are empty then. -/
theorem holders_queues_cleanPids (dead : Nat → Bool) {f : ShrForest σ} (h : f.Waiters) (ctl : MlkCtl) :
    (cleanPids dead f ctl).1.holders = (f.holders.filter fun h => !dead h.2.processId) ∧
    (cleanPids dead f ctl).1.queues = (f.queues.map fun q => (q.1, keptQueue dead q.2)).filter fun q => q.2 ≠ [] := by
  induction f generalizing ctl with
  | empty => exact ⟨rfl, rfl⟩
  | node d children rsib ihc ihr =>
    obtain ⟨hd, hc, hr⟩ := h.parts
    obtain ⟨ihh, ihq⟩ := ihc hc ctl
    rw [cleanPids]
    generalize cleanPids dead children ctl = cleaned at ihh ihq ⊢
    obtain ⟨children', ctl₁⟩ := cleaned
    simp only at ihh ihq ⊢
    obtain ⟨hv, hp, ha, ho⟩ := cleanNode_spec dead ctl₁ hd
    generalize cleanNode dead d ctl₁ = cleaned at hv hp ha ho ⊢
    obtain ⟨d', ctl₂⟩ := cleaned
    have hholders : (ShrForest.node d' children' .empty).holders =
        ((ShrForest.node d children .empty).holders).filter fun h => !dead h.2.processId := by
      rw [ShrForest.holders, ihh, hv, ha, ho]
      simp only [ShrForest.holders, List.append_nil, List.filter_append, List.filter_map]
      congr 1
      by_cases h0 : d.owner = 0
      · simp [h0]
      · by_cases hdd : dead d.owner = true <;> simp [h0, hdd]
    have hqueues : (ShrForest.node d' children' .empty).queues =
        ((ShrForest.node d children .empty).queues.map fun q => (q.1, keptQueue dead q.2)).filter fun q => q.2 ≠ [] := by
      rw [ShrForest.queues, ihq, hv, hp]
      simp only [ShrForest.queues, List.append_nil, List.map_append, List.filter_append, List.filter_map, List.map_map]
      congr 1
      by_cases h0 : d.pending = []
      · simp [h0, keptQueue]
      · by_cases hk : keptQueue dead d.pending = [] <;> simp [h0, hk]
    rw [holders_node d, queues_node d, List.filter_append, List.map_append, List.filter_append, ← hholders, ← hqueues]
    split
    · rename_i hu
      rw [holders_of_isUnused hu, queues_of_isUnused hu]
      exact ihr hr _
    · rw [holders_node d', queues_node d', (ihr hr _).1, (ihr hr _).2]
      exact ⟨rfl, rfl⟩

/-! ## What cleaning is for -/

/-- The live owners of a tree. -/
def ShrForest.liveHolders (alive : Nat → Bool) (f : ShrForest σ) : List (List σ × LockOwner) :=
  f.holders.filter fun h => alive h.2.processId

/-- The live processes that wait, in the order of their queues. -/
def ShrForest.liveQueues (alive : Nat → Bool) (f : ShrForest σ) : List (List σ × List MlkPrcblk) :=
  (f.queues.map fun q => (q.1, q.2.filter fun p => alive p.processId)).filter fun q => q.2 ≠ []

/-- A tree cleaned of dead processes: none of them owns a node or waits for one, and the live ones own and wait as before. -/
structure CleanedOf (alive : Nat → Bool) (f f' : ShrForest σ) : Prop where
  owner : ∀ h ∈ f'.holders, alive h.2.processId = true
  waiter : ∀ q ∈ f'.queues, ∀ p ∈ q.2, alive p.processId = true
  liveHolders : f'.liveHolders alive = f.liveHolders alive
  liveQueues : f'.liveQueues alive = f.liveQueues alive

/-- A tree that the two walks can clean: no queue ends in a dead process, and the slot of each dead process is its own. -/
structure ShrForest.Cleanable (alive : Nat → Bool) (f : ShrForest σ) : Prop where
  owner : ∀ h ∈ f.holders, alive h.2.processId = false → f.Noted h.2.processId
  waiter : ∀ q ∈ f.queues, ∀ p ∈ q.2.dropLast, alive p.processId = false → f.Noted p.processId
  last : ∀ q ∈ f.queues, ∀ p, q.2.getLast? = some p → alive p.processId = true

/-- `mlk_shrclean` takes out what it finds dead. -/
theorem mlkShrclean_spec (alive : Nat → Bool) {f : ShrForest σ} (h : f.Waiters) (ctl : MlkCtl) :
    ∃ dead : Nat → Bool, (∀ pid, pid ≠ 0 → (dead pid = true ↔ f.Noted pid ∧ alive pid = false)) ∧
      (∀ pid, dead pid = true → alive pid = false) ∧ (mlkShrclean alive f ctl).1.holders = f.holders.filter (fun h => !dead h.2.processId) ∧
      (mlkShrclean alive f ctl).1.queues = (f.queues.map fun q => (q.1, keptQueue dead q.2)).filter fun q => q.2 ≠ [] := by
  refine ⟨_, fun pid h0 => foundDead_iff alive f h0, fun pid hd => ?_, holders_queues_cleanPids _ h ctl⟩
  simp only [foundDead, checkPids, Bool.and_eq_true, beq_iff_eq, bne_iff_ne, Bool.not_eq_true'] at hd
  rw [hd.1] at hd
  exact hd.2.2

/-- The live owners stay, whatever else does. -/
theorem liveHolders_of_filter {alive dead : Nat → Bool} (h : ∀ pid, dead pid = true → alive pid = false) {f f' : ShrForest σ}
    (hf : f'.holders = f.holders.filter fun h => !dead h.2.processId) : f'.liveHolders alive = f.liveHolders alive := by
  rw [ShrForest.liveHolders, hf, List.filter_filter]
  refine List.filter_congr fun x _ => ?_
  cases hd : dead x.2.processId with
  | false => simp
  | true => simp [h _ hd]

/-- The live processes that wait stay in their order, whatever else does. -/
theorem liveQueues_of_kept {alive dead : Nat → Bool} (h : ∀ pid, dead pid = true → alive pid = false) {f f' : ShrForest σ}
    (hf : f'.queues = (f.queues.map fun q => (q.1, keptQueue dead q.2)).filter fun q => q.2 ≠ []) :
    f'.liveQueues alive = f.liveQueues alive := by
  rw [ShrForest.liveQueues, ShrForest.liveQueues, hf]
  generalize f.queues = qs
  induction qs with
  | nil => rfl
  | cons q qs ih =>
    have hk := filter_keptQueue h q.2
    rw [List.map_cons, List.map_cons, ← hk]
    by_cases he : keptQueue dead q.2 = []
    · rw [List.filter_cons_of_neg (by simp [he]), ih, List.filter_cons_of_neg (by simp [he])]
    · rw [List.filter_cons_of_pos (by simp [he]), List.map_cons, List.filter_cons, List.filter_cons, ih]

end LockClean

/-- A live process that owns a node, a dead one and a live one that wait for it, and a dead process that owns a node below. -/
def cleanableForest : ShrForest Nat :=
  .node { idx := 1, value := 0, owner := 5, pending := [⟨6, 1⟩, ⟨7, 1⟩] } (.node { idx := 2, value := 3, owner := 8 } .empty .empty) .empty

end Gtm
