import Gtm.Db.BtQueues
import Gtm.Lemmas.BlockTable

/-!
# The queues of the block table

What the operations of the two kinds of queues do to the lists of the records that are on them: the chains and `tnque` do not meet in
memory.
-/

namespace Gtm

open QueMem

namespace BtLayout

variable {lay : BtLayout} {i j c c' : Nat}

/-- The address of a record's links on `tnque`. -/
def th (lay : BtLayout) (i : Nat) : Int := lay.btBase i + sizeofTnque

theorem btBase_inj (h : lay.btBase i = lay.btBase j) : i = j := by
  simp only [btBase, sizeofBtRec] at h
  omega

theorem th_inj (h : lay.th i = lay.th j) : i = j := by
  simp only [th, btBase, sizeofBtRec] at h
  omega

theorem hdr_inj (h : lay.hdr c = lay.hdr c') : c = c' := by
  simp only [hdr, sizeofBtRec] at h
  omega

theorem hdr_ne_btBase (hc : c < lay.btBuckets) (i : Nat) : lay.hdr c ≠ lay.btBase i := by
  simp only [hdr, btBase, sizeofBtRec]
  omega

theorem th_ne_thBase (i : Nat) : lay.th i ≠ lay.thBase := by
  simp only [th, thBase, hdr, btBase, sizeofBtRec, sizeofTnque]
  omega

/-- An entry of a chain. -/
theorem mem_chain {l : List Nat} {a : Int} : a ∈ lay.hdr c :: l.map lay.btBase ↔ a = lay.hdr c ∨ ∃ i ∈ l, a = lay.btBase i := by
  simp only [List.mem_cons, List.mem_map, eq_comm]

/-- An entry of `tnque`. -/
theorem mem_tnque {l : List Nat} {a : Int} : a ∈ lay.thBase :: l.map lay.th ↔ a = lay.thBase ∨ ∃ i ∈ l, a = lay.th i := by
  simp only [List.mem_cons, List.mem_map, eq_comm]

theorem disjoint_chain_tnque (lay : BtLayout) (c : Nat) (l l' : List Nat) :
    (lay.hdr c :: l.map lay.btBase).Disjoint (lay.thBase :: l'.map lay.th) := by
  intro a ha ha'
  rw [mem_chain] at ha
  rw [mem_tnque] at ha'
  simp only [th, thBase, hdr, btBase, sizeofBtRec, sizeofTnque] at ha ha'
  rcases ha with ha | ⟨i, -, ha⟩ <;> rcases ha' with ha' | ⟨j, -, ha'⟩ <;> omega

theorem disjoint_chains {l l' : List Nat} (hc : c < lay.btBuckets) (hc' : c' < lay.btBuckets) (hne : c ≠ c') (hl : ∀ i ∈ l, i ∉ l') :
    (lay.hdr c :: l.map lay.btBase).Disjoint (lay.hdr c' :: l'.map lay.btBase) := by
  intro a ha ha'
  rw [mem_chain] at ha ha'
  rcases ha with rfl | ⟨i, hi, rfl⟩ <;> rcases ha' with ha' | ⟨j, hj, ha'⟩
  · exact hne (hdr_inj ha')
  · exact hdr_ne_btBase hc j ha'
  · exact hdr_ne_btBase hc' i ha'.symm
  · exact hl i hi (btBase_inj ha' ▸ hj)

end BtLayout

open BtLayout

/-- The records on the chains, and on `tnque`. -/
structure Queues (lay : BtLayout) (que : QueMem) (chain : Nat → List Nat) (tnque : List Nat) : Prop where
  chains : ∀ c < lay.btBuckets, que.Que (lay.hdr c :: (chain c).map lay.btBase)
  tnque : que.Que (lay.thBase :: tnque.map lay.th)
  apart : ∀ i c c', i ∈ chain c → i ∈ chain c' → c = c'

namespace Queues

variable {lay : BtLayout} {que : QueMem} {chain : Nat → List Nat} {tnq : List Nat} {i c : Nat}

theorem erase_split {p s : List Nat} (h : (p ++ i :: s).Nodup) : (p ++ i :: s).erase i = p ++ s := by
  have hip : i ∉ p := fun hip => List.disjoint_of_nodup_append h hip List.mem_cons_self
  rw [List.erase_append_right _ hip, List.erase_cons_head]

/-- A change of one chain leaves the other queues. -/
theorem of_chain {que' : QueMem} {chain' : Nat → List Nat} {l : List Nat} (h : Queues lay que chain tnq) (hc : c < lay.btBuckets)
    (hhere : que'.Que (lay.hdr c :: (chain' c).map lay.btBase)) (hsame : que.Same que' (lay.hdr c :: l.map lay.btBase))
    (hl : ∀ c', c' ≠ c → ∀ i ∈ chain c', i ∉ l) (hother : ∀ c', c' ≠ c → chain' c' = chain c')
    (hapart : ∀ i c c', i ∈ chain' c → i ∈ chain' c' → c = c') : Queues lay que' chain' tnq := by
  refine ⟨fun c' hc' => ?_, h.tnque.same hsame (List.disjoint_symm (disjoint_chain_tnque lay c l tnq)), hapart⟩
  by_cases heq : c' = c
  · exact heq ▸ hhere
  · rw [hother c' heq]
    exact (h.chains c' hc').same hsame (disjoint_chains hc' hc heq (hl c' heq))

/-- A change of `tnque` leaves the chains. -/
theorem of_tnque {que' : QueMem} {l tnq' : List Nat} (h : Queues lay que chain tnq) (hhere : que'.Que (lay.thBase :: tnq'.map lay.th))
    (hsame : que.Same que' (lay.thBase :: l.map lay.th)) : Queues lay que' chain tnq' :=
  ⟨fun c hc => (h.chains c hc).same hsame (disjoint_chain_tnque lay c (chain c) l), hhere, h.apart⟩

/-- A record is taken off its chain. -/
theorem remove (h : Queues lay que chain tnq) (hc : c < lay.btBuckets) (hi : i ∈ chain c) :
    ∃ que', que.remqt (que.next (lay.btBase i)) = (some (lay.btBase i), que') ∧ Queues lay que' (fun c => (chain c).erase i) tnq := by
  obtain ⟨p, s, hps⟩ := List.append_of_mem hi
  have hque := h.chains c hc
  have hnodup : (chain c).Nodup := (List.nodup_cons.1 hque.nodup).2.of_map
  have herase : (chain c).erase i = p ++ s := by
    rw [hps] at hnodup ⊢
    exact erase_split hnodup
  rw [hps, List.map_append, ← List.cons_append] at hque
  obtain ⟨que', heq, hhere, hsame⟩ := remqt_que hque (by simp)
  refine ⟨que', heq, h.of_chain (l := p ++ s) hc ?_ ?_ ?_ ?_ ?_⟩
  · rw [herase, List.map_append]
    exact hhere
  · rw [List.map_append]
    exact hsame
  · intro c' hne j hj hjl
    refine hne (h.apart j c' c hj ?_)
    rw [hps, List.mem_append, List.mem_cons]
    rcases List.mem_append.1 hjl with hj | hj
    · exact .inl hj
    · exact .inr (.inr hj)
  · intro c' hne
    exact List.erase_of_not_mem fun hi' => hne (h.apart i c' c hi' hi)
  · intro j c₁ c₂ h₁ h₂
    exact h.apart j c₁ c₂ (List.mem_of_mem_erase h₁) (List.mem_of_mem_erase h₂)

/-- A record that is on no chain is put on one. -/
theorem append (h : Queues lay que chain tnq) (hc : c < lay.btBuckets) (hi : ∀ c, i ∉ chain c) :
    Queues lay (que.insqt (lay.btBase i) (lay.hdr c)) (fun c' => chain c' ++ if c' = c then [i] else []) tnq := by
  have hnew : lay.btBase i ∉ lay.hdr c :: (chain c).map lay.btBase := by
    rw [mem_chain, not_or]
    exact ⟨(hdr_ne_btBase hc i).symm, fun ⟨j, hj, heq⟩ => hi c (btBase_inj heq ▸ hj)⟩
  obtain ⟨hhere, hsame⟩ := insqt_que (h.chains c hc) hnew
  refine h.of_chain (l := i :: chain c) hc ?_ (fun a ha => hsame a fun hm => ha ?_) ?_ ?_ ?_
  · simp only [if_true, List.map_append, List.map_cons, List.map_nil]
    exact hhere
  · simp only [List.mem_cons, List.map_cons] at hm ⊢
    tauto
  · intro c' hne j hj hjl
    rcases List.mem_cons.1 hjl with rfl | hjl
    · exact hi c' hj
    · exact hne (h.apart j c' c hj hjl)
  · intro c' hne
    rw [if_neg hne, List.append_nil]
  · intro j c₁ c₂ h₁ h₂
    have hcases : ∀ c', j ∈ chain c' ++ (if c' = c then [i] else []) → j ∈ chain c' ∨ (c' = c ∧ j = i) := fun c' hj => by
      rcases List.mem_append.1 hj with hj | hj
      · exact .inl hj
      · split_ifs at hj with heq
        · exact .inr ⟨heq, List.mem_singleton.1 hj⟩
        · exact absurd hj (by simp)
    rcases hcases c₁ h₁ with h₁ | ⟨rfl, rfl⟩ <;> rcases hcases c₂ h₂ with h₂ | ⟨h₂, h₂'⟩
    · exact h.apart j c₁ c₂ h₁ h₂
    · exact absurd (h₂' ▸ h₁) (hi c₁)
    · exact absurd h₂ (hi c₂)
    · exact h₂.symm

/-- The oldest record is taken off `tnque`. -/
theorem pop {rest : List Nat} (h : Queues lay que chain (i :: rest)) :
    que.next lay.thBase = lay.th i ∧ ∃ que', que.remqh lay.thBase = (some (lay.th i), que') ∧ Queues lay que' chain rest := by
  have hque := h.tnque
  obtain ⟨que', heq, hhere, hsame⟩ := remqh_que hque
  exact ⟨hque.ring.1, que', heq, h.of_tnque hhere hsame⟩

/-- A record is put at the tail of `tnque`. -/
theorem push (h : Queues lay que chain tnq) (hi : i ∉ tnq) : Queues lay (que.insqt (lay.th i) lay.thBase) chain (tnq ++ [i]) := by
  have hnew : lay.th i ∉ lay.thBase :: tnq.map lay.th := by
    rw [mem_tnque, not_or]
    exact ⟨th_ne_thBase i, fun ⟨j, hj, heq⟩ => hi (th_inj heq ▸ hj)⟩
  obtain ⟨hhere, hsame⟩ := insqt_que h.tnque hnew
  refine h.of_tnque (l := i :: tnq) ?_ fun a ha => hsame a fun hm => ha ?_
  · rw [List.map_append]
    exact hhere
  · simp only [List.mem_cons, List.map_cons] at hm ⊢
    tauto

/-- A record is taken off `tnque`. -/
theorem take (h : Queues lay que chain tnq) (hi : i ∈ tnq) :
    ∃ que', que.remqt (que.next (lay.th i)) = (some (lay.th i), que') ∧ Queues lay que' chain (tnq.erase i) := by
  obtain ⟨p, s, hps⟩ := List.append_of_mem hi
  have hque := h.tnque
  have hnodup : tnq.Nodup := (List.nodup_cons.1 hque.nodup).2.of_map
  have herase : tnq.erase i = p ++ s := by
    rw [hps] at hnodup ⊢
    exact erase_split hnodup
  rw [hps, List.map_append, ← List.cons_append] at hque
  obtain ⟨que', heq, hhere, hsame⟩ := remqt_que hque (by simp)
  refine ⟨que', heq, h.of_tnque (l := p ++ s) ?_ ?_⟩
  · rw [herase, List.map_append]
    exact hhere
  · rw [List.map_append]
    exact hsame

end Queues

/-! ## The table -/

/-- What else holds of the table between two `bt_put`s: all the records are in the queue, those that have never been used are on the
chains they started on, the numbers that are not zero are in order, and a record has the number of the last update of its block. -/
structure BlockTable.Kept (t : BlockTable) (updates : List (Nat × Nat)) : Prop where
  all : t.tnque.Perm (List.range t.nBts)
  first : ∀ i ∈ t.tnque, (t.recs i).blk = none → i ∈ t.chain i
  order : t.tnque.Pairwise fun i j => (t.recs i).tn ≠ 0 → (t.recs j).tn ≠ 0 → (t.recs i).tn ≤ (t.recs j).tn
  last : ∀ i ∈ t.tnque, ∀ b, (t.recs i).blk = some b → (updates.filter fun u => u.2 = b).getLast? = some ((t.recs i).tn, b)
  kill : ∀ i ∈ t.tnque, (t.recs i).killtn ≤ (t.recs i).tn

namespace BlockTable

variable {t t' : BlockTable} {updates : List (Nat × Nat)} {currTn : Nat}

/-- What `bt_put` makes of the table. -/
theorem Inv.btPut_cases (h : t.Inv updates currTn) (b : Nat) :
    (∃ i ∈ t.tnque, (t.recs i).blk = some b ∧ (t.chain (t.bucket b)).find? (fun i => (t.recs i).blk = some b) = some i ∧
      t.btPut b currTn = some { t with
        recs := Function.update t.recs i { t.recs i with tn := currTn }
        tnque := t.tnque.erase i ++ [i] }) ∨
    (t.chain (t.bucket b)).find? (fun i => (t.recs i).blk = some b) = none ∧ (∀ i ∈ t.tnque, (t.recs i).blk ≠ some b) ∧
      ∃ i rest, t.tnque = i :: rest ∧ t.btPut b currTn = some { t with
        recs := Function.update t.recs i { blk := some b, tn := currTn, killtn := currTn }
        chain := fun c => (t.chain c).erase i ++ if c = t.bucket b then [i] else []
        tnque := rest ++ [i] } := by
  have hlen := h.chain_length (t.bucket b)
  have hput : t.btPut b currTn = _ := BlockTable.btPut.eq_1 t b currTn
  rw [findChain_eq_find? _ _ _ _ (by omega)] at hput
  cases hf : (t.chain (t.bucket b)).find? fun i => (t.recs i).blk = some b with
  | some i =>
    obtain ⟨hi, hb⟩ := h.find_some hf
    rw [hf] at hput
    exact .inl ⟨i, hi, hb, rfl, hput⟩
  | none =>
    cases hq : t.tnque with
    | nil =>
      have hlen := h.queue_length
      have hpos := h.queue_pos
      rw [hq, List.length_nil] at hlen
      omega
    | cons i rest =>
      rw [hf, hq] at hput
      exact .inr ⟨rfl, hq ▸ h.find_none hf, i, rest, rfl, hput⟩

/-- The queue holds the same records. -/
theorem mem_moved {l : List Nat} {i j : Nat} (hi : i ∈ l) : j ∈ l.erase i ++ [i] ↔ j ∈ l :=
  (List.perm_append_singleton i (l.erase i)).trans (List.perm_cons_erase hi).symm |>.mem_iff

/-- A record that gets the current number goes to the tail. -/
theorem pairwise_order {recs recs' : Nat → BtRec} {l : List Nat} {i : Nat}
    (h : l.Pairwise fun i j => (recs i).tn ≠ 0 → (recs j).tn ≠ 0 → (recs i).tn ≤ (recs j).tn) (hsame : ∀ j ∈ l, (recs' j).tn = (recs j).tn)
    (hle : ∀ j ∈ l, (recs j).tn ≤ (recs' i).tn) :
    (l ++ [i]).Pairwise fun i j => (recs' i).tn ≠ 0 → (recs' j).tn ≠ 0 → (recs' i).tn ≤ (recs' j).tn := by
  refine List.pairwise_append.2 ⟨h.imp_of_mem fun ha hb hab => ?_, List.pairwise_singleton _ i, fun a ha b hb _ _ => ?_⟩
  · rw [hsame _ ha, hsame _ hb]
    exact hab
  · rw [List.mem_singleton.1 hb, hsame a ha]
    exact hle a ha

/-- The last update of a block behind an update. -/
theorem getLast?_updates (updates : List (Nat × Nat)) (u : Nat) {b c : Nat} :
    ((updates ++ [(u, b)]).filter fun x => x.2 = c).getLast? =
      if b = c then some (u, b) else (updates.filter fun x => x.2 = c).getLast? := by
  by_cases hbc : b = c
  · simp [hbc]
  · simp [hbc]

/-- The record `i` is given the number of an update of a block, and goes to the tail. -/
theorem Kept.moved (h : t.Inv updates currTn) (hk : t.Kept updates) {i b : Nat} (hi : i ∈ t.tnque)
    (hother : ∀ j, j ≠ i → t'.recs j = t.recs j) (hblk : (t'.recs i).blk = some b) (htn : (t'.recs i).tn = currTn)
    (hkill : (t'.recs i).killtn ≤ currTn) (hown : ∀ j ∈ t.tnque, (t.recs j).blk = some b → j = i) (hn : t'.nBts = t.nBts)
    (hchain : ∀ j, j ≠ i → j ∈ t.chain j → j ∈ t'.chain j) (hqueue : t'.tnque = t.tnque.erase i ++ [i]) :
    t'.Kept (updates ++ [(currTn, b)]) := by
  have hcases : ∀ j ∈ t'.tnque, j ≠ i ∧ j ∈ t.tnque ∨ j = i := fun j hj => by
    by_cases hji : j = i
    · exact .inr hji
    · rw [hqueue] at hj
      exact .inl ⟨hji, (mem_moved hi).1 hj⟩
  refine ⟨?_, fun j hj hnone => ?_, ?_, fun j hj c hc => ?_, fun j hj => ?_⟩
  · rw [hqueue, hn]
    exact ((List.perm_append_singleton i _).trans (List.perm_cons_erase hi).symm).trans hk.all
  · rcases hcases j hj with ⟨hji, hj⟩ | rfl
    · rw [hother j hji] at hnone
      exact hchain j hji (hk.first j hj hnone)
    · exact absurd (hblk.symm.trans hnone) (by simp)
  · rw [hqueue]
    refine pairwise_order (hk.order.sublist List.erase_sublist) (fun j hj => ?_) fun j hj => ?_
    · rw [hother j (h.queue_nodup.mem_erase_iff.1 hj).1]
    · rw [htn]
      exact h.tn_le j (List.mem_of_mem_erase hj)
  · rw [getLast?_updates]
    rcases hcases j hj with ⟨hji, hj⟩ | rfl
    · rw [hother j hji] at hc ⊢
      have hbc : b ≠ c := fun hbc => hji (hown j hj (hbc ▸ hc))
      rw [if_neg hbc]
      exact hk.last j hj c hc
    · have hbc : b = c := Option.some.inj (hblk.symm.trans hc)
      rw [if_pos hbc, htn, hbc]
  · rcases hcases j hj with ⟨hji, hj⟩ | rfl
    · rw [hother j hji]
      exact hk.kill j hj
    · rw [htn]
      exact hkill

theorem Kept.btPut (h : t.Inv updates currTn) (hk : t.Kept updates) (b : Nat) (hput : t.btPut b currTn = some t') :
    t'.Kept (updates ++ [(currTn, b)]) := by
  rcases h.btPut_cases b with ⟨i, hi, hb, -, heq⟩ | ⟨-, habs, i, rest, hq, heq⟩
  · obtain rfl := Option.some.inj (heq.symm.trans hput)
    refine hk.moved h hi (fun j hj => Function.update_of_ne hj _ _) ?_ ?_ ?_ (fun j hj hjb => h.unique j hj i hi b hjb hb) rfl
      (fun j _ hj => hj) rfl
    · simpa using hb
    · simp
    · simpa using Nat.le_trans (hk.kill i hi) (h.tn_le i hi)
  · obtain rfl := Option.some.inj (heq.symm.trans hput)
    have hi : i ∈ t.tnque := by simp [hq]
    refine hk.moved h hi (fun j hj => Function.update_of_ne hj _ _) ?_ ?_ ?_ (fun j hj hjb => absurd hjb (habs j hj)) rfl
      (fun j hji hj => List.mem_append_left _ ((List.mem_erase_of_ne hji).2 hj)) ?_
    · simp
    · simp
    · simp
    · rw [hq, List.erase_cons_head]

end BlockTable

/-! ## The table in memory -/

/-- A record and what it is in memory. -/
structure RecRep (r : BtRec) (d : BtData) : Prop where
  blk : d.blk = match r.blk with
    | none => btNotvalid
    | some b => (b : Int)
  tn : d.tn = r.tn
  killtn : d.killtn = r.killtn

theorem RecRep.blk_eq_iff {r : BtRec} {d : BtData} (h : RecRep r d) (b : Nat) : d.blk = b ↔ r.blk = some b := by
  rw [h.blk]
  cases r.blk with
  | none => simp [btNotvalid]
  | some c => simp only [Option.some.injEq, Int.ofNat_inj]

theorem RecRep.not_quehead {r : BtRec} {d : BtData} (h : RecRep r d) : d.blk ≠ btQuehead := by
  rw [h.blk]
  cases r.blk with
  | none => decide
  | some c =>
    simp only [btQuehead]
    omega

/-- The table and its memory. -/
structure BtRep (lay : BtLayout) (t : BlockTable) (m : BtMem) : Prop where
  queues : Queues lay m.que t.chain t.tnque
  nBts : t.nBts = lay.nBts
  btBuckets : t.btBuckets = lay.btBuckets
  heads : ∀ c < lay.btBuckets, (m.bt (lay.hdr c)).blk = btQuehead
  recs : ∀ i ∈ t.tnque, RecRep (t.recs i) (m.bt (lay.btBase i))

namespace BtRep

variable {lay : BtLayout} {t : BlockTable} {m : BtMem} {updates : List (Nat × Nat)} {lclTn c b i : Nat}

/-- The data of one record is changed. -/
theorem recs_of {bt' : Int → BtData} {r : BtRec} (h : BtRep lay t m) (hother : ∀ a, a ≠ lay.btBase i → bt' a = m.bt a)
    (hrec : RecRep r (bt' (lay.btBase i))) : ∀ j ∈ t.tnque, RecRep (Function.update t.recs i r j) (bt' (lay.btBase j)) := by
  intro j hj
  by_cases hji : j = i
  · rw [hji, Function.update_self]
    exact hrec
  · rw [Function.update_of_ne hji, hother _ fun heq => hji (btBase_inj heq)]
    exact h.recs j hj

theorem heads_of {bt' : Int → BtData} (h : BtRep lay t m) (hother : ∀ a, a ≠ lay.btBase i → bt' a = m.bt a) :
    ∀ c < lay.btBuckets, (bt' (lay.hdr c)).blk = btQuehead := by
  intro c hc
  rw [hother _ (hdr_ne_btBase hc i)]
  exact h.heads c hc

/-- The loop of `bt_put` finds the first record of the block on the rest of the chain. -/
theorem btPutSearch_eq (hc : c < lay.btBuckets) (hhead : (m.bt (lay.hdr c)).blk = btQuehead) {l : List Nat} {a : Int} {left : Nat}
    (hlink : PtrRing.Linked m.que.next m.que.prev a (l.map lay.btBase) (lay.hdr c)) (hnd : l.Nodup)
    (hrecs : ∀ i ∈ l, RecRep (t.recs i) (m.bt (lay.btBase i))) (hlen : l.length ≤ left) :
    BtMem.btPutSearch m b left (m.que.next a) = .ok ((l.find? fun i => (t.recs i).blk = some b).map lay.btBase) := by
  induction l generalizing a left with
  | nil =>
    have hnext : m.que.next a = lay.hdr c := hlink.1
    rw [hnext, BtMem.btPutSearch.eq_def]
    exact if_pos hhead
  | cons i l ih =>
    obtain ⟨hnext, -, hrest⟩ := hlink
    have hrec := hrecs i List.mem_cons_self
    obtain ⟨left, rfl⟩ : ∃ k, left = k + 1 := ⟨left - 1, by rw [List.length_cons] at hlen; omega⟩
    rw [hnext, BtMem.btPutSearch, if_neg hrec.not_quehead]
    by_cases hb : (t.recs i).blk = some b
    · rw [if_pos ((hrec.blk_eq_iff b).2 hb), List.find?_cons_of_pos (by simpa using hb)]
      rfl
    · have hfl : m.que.fl (lay.btBase i) ≠ 0 := fun h0 => by
        have hself : m.que.next (lay.btBase i) = lay.btBase i := by
          rw [QueMem.next]
          omega
        have hnext' := hrest.next_eq
        rw [hself] at hnext'
        have hmem : lay.btBase i ∈ l.map lay.btBase ++ [lay.hdr c] := hnext' ▸ List.head_mem _
        rcases List.mem_append.1 hmem with hm | hm
        · obtain ⟨j, hj, heq⟩ := List.mem_map.1 hm
          exact (List.nodup_cons.1 hnd).1 (btBase_inj heq ▸ hj)
        · exact hdr_ne_btBase hc i (List.mem_singleton.1 hm).symm
      rw [if_neg fun h => hb ((hrec.blk_eq_iff b).1 h), if_neg hfl, List.find?_cons_of_neg (by simpa using hb)]
      exact ih hrest (List.nodup_cons.1 hnd).2 (fun j hj => hrecs j (List.mem_cons_of_mem _ hj)) (by rw [List.length_cons] at hlen; omega)

/-- So does the loop of `bt_get`. -/
theorem btGetLoop_eq (hhead : (m.bt (lay.hdr c)).blk = btQuehead) {l : List Nat} {a : Int} {left : Nat}
    (hlink : PtrRing.Linked m.que.next m.que.prev a (l.map lay.btBase) (lay.hdr c))
    (hrecs : ∀ i ∈ l, RecRep (t.recs i) (m.bt (lay.btBase i))) (hlen : l.length ≤ left) :
    (BtMem.btGetLoop m b left a).1 = (l.find? fun i => (t.recs i).blk = some b).map lay.btBase := by
  induction l generalizing a left with
  | nil =>
    cases left with
    | zero => rfl
    | succ left =>
      have hnext : a + m.que.fl a = lay.hdr c := hlink.1
      have hne : (m.bt (lay.hdr c)).blk ≠ b := by
        rw [hhead, btQuehead]
        omega
      simp only [BtMem.btGetLoop, hnext, if_neg hne, if_pos hhead]
      rfl
  | cons i l ih =>
    obtain ⟨hnext, -, hrest⟩ := hlink
    have hnext : a + m.que.fl a = lay.btBase i := hnext
    have hrec := hrecs i List.mem_cons_self
    obtain ⟨left, rfl⟩ : ∃ k, left = k + 1 := ⟨left - 1, by rw [List.length_cons] at hlen; omega⟩
    simp only [BtMem.btGetLoop, hnext]
    by_cases hb : (t.recs i).blk = some b
    · rw [if_pos ((hrec.blk_eq_iff b).2 hb), List.find?_cons_of_pos (by simpa using hb)]
      rfl
    · rw [if_neg fun h => hb ((hrec.blk_eq_iff b).1 h), if_neg hrec.not_quehead, List.find?_cons_of_neg (by simpa using hb)]
      exact ih hrest (fun j hj => hrecs j (List.mem_cons_of_mem _ hj)) (by rw [List.length_cons] at hlen; omega)

section
variable (h : BtRep lay t m)
include h

/-- The chain of a block as `bt_put` and `bt_get` find it. -/
theorem chain_linked (hc : c < lay.btBuckets) :
    PtrRing.Linked m.que.next m.que.prev (lay.hdr c) ((t.chain c).map lay.btBase) (lay.hdr c) := (h.queues.chains c hc).ring

section
variable (hinv : t.Inv updates lclTn)
include hinv

theorem chain_recs (c : Nat) : ∀ i ∈ t.chain c, RecRep (t.recs i) (m.bt (lay.btBase i)) := fun i hi => h.recs i (hinv.chain_sub c i hi)

/-- `bt_get` finds the record of a block. -/
theorem btGet_eq (hpos : 0 < lay.btBuckets) (b : Nat) :
    (m.btGet lay b).1 = ((t.chain (t.bucket b)).find? fun i => (t.recs i).blk = some b).map lay.btBase := by
  have hc : b % lay.btBuckets < lay.btBuckets := Nat.mod_lt _ hpos
  have hlen := hinv.chain_length (b % lay.btBuckets)
  rw [h.nBts] at hlen
  rw [BtMem.btGet, btGetLoop_eq (h.heads _ hc) (h.chain_linked hc) (h.chain_recs hinv _) hlen, BlockTable.bucket, h.btBuckets]

/-- `bt_put` of a block that has a record. -/
theorem btPut_touch (hi : i ∈ t.tnque) {cache : BtCache}
    (hsearch : m.btPutSearch b lay.nBts (m.que.next (lay.hdr (b % lay.btBuckets))) = .ok (some (lay.btBase i))) :
    ∃ m', m.btPut lay cache b lclTn = .ok (some (lay.btBase i), m') ∧ BtRep lay { t with
        recs := Function.update t.recs i { t.recs i with tn := lclTn }
        tnque := t.tnque.erase i ++ [i] } m' := by
  obtain ⟨que, heq, hqueues⟩ := h.queues.take hi
  have hq0 : lay.btBase i + m.que.fl (lay.btBase i + sizeofTnque) + sizeofTnque = m.que.next (lay.th i) := by
    simp only [QueMem.next, th]
    omega
  have hsearch' : m.btPutSearch b lay.nBts (lay.hdr (b % lay.btBuckets) + m.que.fl (lay.hdr (b % lay.btBuckets))) = _ := hsearch
  refine ⟨BtMem.btPutEnd lay (lay.btBase i) (lay.th i) lclTn { m with que := que }, ?_, ?_⟩
  · simp only [BtMem.btPut, hsearch', hq0, heq]
  · have hnot : i ∉ t.tnque.erase i := fun hmem => (hinv.queue_nodup.mem_erase_iff.1 hmem).1 rfl
    have hrec := h.recs i hi
    have hother : ∀ a, a ≠ lay.btBase i →
        (BtMem.btPutEnd lay (lay.btBase i) (lay.th i) lclTn { m with que := que }).bt a = m.bt a := fun a ha =>
      Function.update_of_ne ha _ _
    refine ⟨hqueues.push hnot, h.nBts, h.btBuckets, h.heads_of hother, fun j hj => ?_⟩
    refine h.recs_of hother ⟨?_, ?_, ?_⟩ j ((BlockTable.mem_moved hi).1 hj)
    · simpa [BtMem.btPutEnd, BtMem.setBt] using hrec.blk
    · simp [BtMem.btPutEnd, BtMem.setBt]
    · simpa [BtMem.btPutEnd, BtMem.setBt] using hrec.killtn

/-- `bt_put` of a block that has none takes the oldest record, unless its buffer cannot be written. -/
theorem btPut_reuse {rest : List Nat} (hq : t.tnque = i :: rest)
    (hc : b % lay.btBuckets < lay.btBuckets) (hon : ∃ c < lay.btBuckets, i ∈ t.chain c) (cache : BtCache)
    (hsearch : m.btPutSearch b lay.nBts (m.que.next (lay.hdr (b % lay.btBuckets))) = .ok none) :
    m.btPut lay cache b lclTn = .ok (none, m) ∨ ∃ m', m.btPut lay cache b lclTn = .ok (some (lay.btBase i), m') ∧ BtRep lay { t with
          recs := Function.update t.recs i { blk := some b, tn := lclTn, killtn := lclTn }
          chain := fun c => (t.chain c).erase i ++ if c = t.bucket b then [i] else []
          tnque := rest ++ [i] } m' := by
  have hsearch' : m.btPutSearch b lay.nBts (lay.hdr (b % lay.btBuckets) + m.que.fl (lay.hdr (b % lay.btBuckets))) = _ := hsearch
  have hold := h.queues
  rw [hq] at hold
  obtain ⟨hnext, -⟩ := hold.pop
  have hbt : lay.thBase + m.que.fl lay.thBase - sizeofTnque = lay.btBase i := by
    have hth : lay.thBase + m.que.fl lay.thBase = lay.btBase i + sizeofTnque := hnext
    omega
  rw [BtMem.btPut]
  simp only [hsearch', hbt]
  by_cases hrefused : (m.bt (lay.btBase i)).cacheIndex ≠ crNotvalid ∧ cache.dirty (m.bt (lay.btBase i)).cacheIndex = true ∧
      cache.wcsGetSpace (m.bt (lay.btBase i)).cacheIndex = false
  · rw [if_pos hrefused]
    exact .inl rfl
  · rw [if_neg hrefused]
    refine .inr ?_
    generalize hm₁ : (if (m.bt (lay.btBase i)).cacheIndex ≠ crNotvalid then
      m.setBt (lay.btBase i) fun d => { d with cacheIndex := crNotvalid } else m) = m₁
    have hque : m₁.que = m.que := by
      rw [← hm₁]
      split_ifs <;> rfl
    have hbt₁ : ∀ a, a ≠ lay.btBase i → m₁.bt a = m.bt a := fun a ha => by
      rw [← hm₁]
      split_ifs
      · exact Function.update_of_ne ha _ _
      · rfl
    -- the record leaves its chain for that of the block
    obtain ⟨c₀, hc₀, hic⟩ := hon
    obtain ⟨que₁, heq₁, hq₁⟩ := h.queues.remove hc₀ hic
    have hgone : ∀ c, i ∉ (t.chain c).erase i := fun c hmem => ((hinv.chain_nodup c).mem_erase_iff.1 hmem).1 rfl
    have hq₂ := hq₁.append hc hgone
    rw [hq] at hq₂
    -- and goes from the front of `tnque` to its end
    obtain ⟨-, que₃, heq₃, hq₃⟩ := hq₂.pop
    have hrest : i ∉ rest := (List.nodup_cons.1 (hq ▸ hinv.queue_nodup)).1
    have heq₁' : m.que.remqt (lay.btBase i + m.que.fl (lay.btBase i)) = (some (lay.btBase i), que₁) := heq₁
    simp only [hque, heq₁', BtMem.setBt, heq₃]
    have hother : ∀ a, a ≠ lay.btBase i → (BtMem.btPutEnd lay (lay.btBase i) (lay.th i) lclTn
        ⟨que₃, Function.update m₁.bt (lay.btBase i)
          { m₁.bt (lay.btBase i) with blk := b, killtn := lclTn }⟩).bt a = m.bt a := fun a ha => by
      simp only [BtMem.btPutEnd, BtMem.setBt, Function.update_of_ne ha, hbt₁ a ha]
    refine ⟨_, rfl, ?_, h.nBts, h.btBuckets, h.heads_of hother, fun j hj => ?_⟩
    · rw [BlockTable.bucket, h.btBuckets]
      exact hq₃.push hrest
    · refine h.recs_of hother ⟨?_, ?_, ?_⟩ j ?_
      · simp [BtMem.btPutEnd, BtMem.setBt]
      · simp [BtMem.btPutEnd, BtMem.setBt]
      · simp [BtMem.btPutEnd, BtMem.setBt]
      · rw [hq, List.mem_cons, or_comm, ← List.mem_singleton, ← List.mem_append]
        exact hj

/-- `bt_put` in memory is `bt_put` of the table, unless it is refused. -/
theorem btPut_sim (hk : t.Kept updates) (hn : lay.nBts ≤ lay.btBuckets) (b : Nat) (cache : BtCache) :
    m.btPut lay cache b lclTn = .ok (none, m) ∨
      ∃ bt m' t', m.btPut lay cache b lclTn = .ok (some bt, m') ∧ t.btPut b lclTn = some t' ∧ BtRep lay t' m' := by
  have hpos : 0 < lay.btBuckets := Nat.lt_of_lt_of_le (h.nBts ▸ hinv.queue_pos) hn
  have hc : b % lay.btBuckets < lay.btBuckets := Nat.mod_lt _ hpos
  have hlen := hinv.chain_length (b % lay.btBuckets)
  rw [h.nBts] at hlen
  have hsearch := btPutSearch_eq (b := b) hc (h.heads _ hc) (h.chain_linked hc) (hinv.chain_nodup _) (h.chain_recs hinv _) hlen
  have hbucket : t.bucket b = b % lay.btBuckets := by rw [BlockTable.bucket, h.btBuckets]
  rcases hinv.btPut_cases b with ⟨i, hi, -, hfind, heq⟩ | ⟨hfind, -, i, rest, hq, heq⟩
  · rw [hbucket] at hfind
    rw [hfind] at hsearch
    obtain ⟨m', hput, hrep⟩ := h.btPut_touch hinv hi hsearch
    exact .inr ⟨_, m', _, hput, heq, hrep⟩
  · rw [hbucket] at hfind
    rw [hfind] at hsearch
    have hi : i ∈ t.tnque := by simp [hq]
    have hlt : i < lay.nBts := h.nBts ▸ List.mem_range.1 (hk.all.mem_iff.1 hi)
    have hon : ∃ c < lay.btBuckets, i ∈ t.chain c := by
      cases hblk : (t.recs i).blk with
      | none => exact ⟨i, Nat.lt_of_lt_of_le hlt hn, hk.first i hi hblk⟩
      | some b' =>
        refine ⟨b' % lay.btBuckets, Nat.mod_lt _ hpos, ?_⟩
        have hplaced := hinv.placed i hi b' hblk
        rwa [BlockTable.bucket, h.btBuckets] at hplaced
    rcases h.btPut_reuse hinv hq hc hon cache hsearch with hput | ⟨m', hput, hrep⟩
    · exact .inl hput
    · exact .inr ⟨_, m', _, hput, heq, hrep⟩

end

/-- The rest of the code may change the cache record of a record, and its number of the last kill. -/
theorem mark (hk : t.Kept updates) (hi : i ∈ t.tnque) (cacheIndex : Int) (kill : Bool) :
    ∃ recs, (∀ j, (recs j).blk = (t.recs j).blk ∧ (recs j).tn = (t.recs j).tn) ∧ BtRep lay { t with recs := recs }
      (m.mark (lay.btBase i) cacheIndex kill) ∧ ∀ j ∈ t.tnque, (recs j).killtn ≤ (recs j).tn := by
  have hother : ∀ a, a ≠ lay.btBase i → (m.mark (lay.btBase i) cacheIndex kill).bt a = m.bt a := fun a ha =>
    Function.update_of_ne ha _ _
  have hrec := h.recs i hi
  refine ⟨Function.update t.recs i { t.recs i with killtn := if kill then (t.recs i).tn else (t.recs i).killtn }, fun j => ?_,
    ⟨h.queues, h.nBts, h.btBuckets, h.heads_of hother, h.recs_of hother ⟨?_, ?_, ?_⟩⟩, fun j hj => ?_⟩
  · by_cases hji : j = i
    · subst hji
      simp
    · rw [Function.update_of_ne hji]
      exact ⟨rfl, rfl⟩
  · simpa [BtMem.mark, BtMem.setBt] using hrec.blk
  · simpa [BtMem.mark, BtMem.setBt] using hrec.tn
  · simp only [BtMem.mark, BtMem.setBt, Function.update_self, hrec.tn, hrec.killtn]
  · by_cases hji : j = i
    · subst hji
      rw [Function.update_self]
      split_ifs
      · exact Nat.le_refl _
      · exact hk.kill j hj
    · rw [Function.update_of_ne hji]
      exact hk.kill j hj

end

end BtRep

/-! ## The table as it is initialized -/

section Refresh

variable {lay : BtLayout} {m : BtMem} {k : Nat}

theorem queues_zero (lay : BtLayout) : Queues lay BtMem.zero.que (fun _ => []) [] := by
  have hself : ∀ a, BtMem.zero.que.Que [a] := fun a => ⟨⟨Int.add_zero a, Int.add_zero a⟩, List.pairwise_singleton _ a⟩
  exact ⟨fun c _ => hself _, hself _, fun i c c' hi => absurd hi (by simp)⟩

theorem filter_range_succ (k c : Nat) :
    (List.range (k + 1)).filter (fun i => i = c) = (List.range k).filter (fun i => i = c) ++ if c = k then [k] else [] := by
  rw [List.range_succ]
  by_cases hc : c = k
  · simp [hc]
  · simp [hc, Ne.symm hc]

/-- The table after some turns of the second loop. -/
structure Refreshed (lay : BtLayout) (k : Nat) (m : BtMem) : Prop where
  queues : Queues lay m.que (fun c => (List.range k).filter fun i => i = c) (List.range k)
  heads : ∀ c < lay.btBuckets, (m.bt (lay.hdr c)).blk = btQuehead
  recs : ∀ i < k, m.bt (lay.btBase i) = ⟨btNotvalid, 0, 0, crNotvalid⟩

theorem Refreshed.step (h : Refreshed lay k m) (hk : k < lay.btBuckets) : Refreshed lay (k + 1) (BtMem.refreshRec lay m k) := by
  have hfree : ∀ c, k ∉ (List.range k).filter fun i => i = c := fun c hmem =>
    Nat.lt_irrefl k (List.mem_range.1 (List.mem_filter.1 hmem).1)
  have hchain := h.queues.append hk hfree
  have hqueue := hchain.push (i := k) (by simp)
  refine ⟨?_, fun c hc => ?_, fun i hi => ?_⟩
  · simp only [filter_range_succ]
    rw [List.range_succ]
    exact hqueue
  · have hother : (BtMem.refreshRec lay m k).bt (lay.hdr c) = m.bt (lay.hdr c) := Function.update_of_ne (hdr_ne_btBase hc k) _ _
    rw [hother]
    exact h.heads c hc
  · by_cases hik : i = k
    · rw [hik]
      exact Function.update_self _ _ _
    · have hother : (BtMem.refreshRec lay m k).bt (lay.btBase i) = m.bt (lay.btBase i) :=
        Function.update_of_ne (fun heq => hik (btBase_inj heq)) _ _
      rw [hother]
      exact h.recs i (by omega)

theorem refreshed_fold (h : Refreshed lay 0 m) (hk : k ≤ lay.btBuckets) :
    Refreshed lay k ((List.range k).foldl (BtMem.refreshRec lay) m) := by
  induction k with
  | zero => exact h
  | succ k ih =>
    rw [List.range_succ, List.foldl_append]
    exact (ih (by omega)).step (by omega)

/-- The first loop makes heads of queues. -/
theorem heads_fold (lay : BtLayout) (m : BtMem) (k : Nat) :
    ((List.range k).foldl (fun m c => m.setBt (lay.hdr c) fun d => { d with blk := btQuehead }) m).que = m.que ∧
      ∀ c < k, (((List.range k).foldl (fun m c => m.setBt (lay.hdr c) fun d => { d with blk := btQuehead }) m).bt (lay.hdr c)).blk =
        btQuehead := by
  induction k with
  | zero => exact ⟨rfl, fun c hc => absurd hc (Nat.not_lt_zero c)⟩
  | succ k ih =>
    rw [List.range_succ, List.foldl_append]
    refine ⟨ih.1, fun c hc => ?_⟩
    simp only [List.foldl_cons, List.foldl_nil, BtMem.setBt]
    by_cases hck : c = k
    · rw [hck, Function.update_self]
    · rw [Function.update_of_ne fun heq => hck (hdr_inj heq)]
      exact ih.2 c (by omega)

/-- `bt_refresh` in memory is that of the table. -/
theorem btRep_btRefresh (hpos : 0 < lay.nBts) (hn : lay.nBts ≤ lay.btBuckets) (startTn : Nat) :
    BtRep lay (BlockTable.btRefresh lay.nBts lay.btBuckets (fun i => i) startTn) (BtMem.btRefresh lay startTn) := by
  obtain ⟨hque, hheads⟩ := heads_fold lay BtMem.zero (lay.btBuckets + 1)
  have hzero : Refreshed lay 0
      ((List.range (lay.btBuckets + 1)).foldl (fun m c => m.setBt (lay.hdr c) fun d => { d with blk := btQuehead }) BtMem.zero) := by
    refine ⟨?_, fun c hc => hheads c (by omega), fun i hi => absurd hi (Nat.not_lt_zero i)⟩
    rw [hque]
    exact queues_zero lay
  have hdone := refreshed_fold hzero hn
  rw [BtMem.btRefresh]
  generalize (List.range lay.nBts).foldl (BtMem.refreshRec lay) _ = m at hdone
  obtain ⟨k, hk⟩ : ∃ k, lay.nBts = k + 1 := ⟨lay.nBts - 1, by omega⟩
  have hfront : lay.thBase + m.que.fl lay.thBase - sizeofTnque = lay.btBase 0 := by
    have hqueues := hdone.queues
    rw [hk, List.range_succ_eq_map] at hqueues
    have hnext : lay.thBase + m.que.fl lay.thBase = lay.btBase 0 + sizeofTnque := hqueues.pop.1
    omega
  have hother : ∀ a, a ≠ lay.btBase 0 → (m.setOldestHistTn lay (startTn - 1)).bt a = m.bt a := fun a ha => by
    rw [BtMem.setOldestHistTn, hfront]
    exact Function.update_of_ne ha _ _
  refine ⟨hdone.queues, rfl, rfl, fun c hc => ?_, fun i hi => ?_⟩
  · rw [hother _ (hdr_ne_btBase hc 0)]
    exact hdone.heads c hc
  · have hdata := hdone.recs i (List.mem_range.1 hi)
    by_cases hi0 : i = 0
    · subst hi0
      have hhere : (m.setOldestHistTn lay (startTn - 1)).bt (lay.btBase 0) = { m.bt (lay.btBase 0) with tn := startTn - 1 } := by
        rw [BtMem.setOldestHistTn, hfront]
        exact Function.update_self _ _ _
      rw [hhere, hdata]
      exact ⟨rfl, rfl, rfl⟩
    · rw [hother _ fun heq => hi0 (btBase_inj heq), hdata]
      exact ⟨rfl, by simp [BlockTable.btRefresh, hi0], rfl⟩

end Refresh

/-! ## Runs -/

namespace BlockTable

variable {t : BlockTable} {updates : List (Nat × Nat)} {currTn : Nat} {recs : Nat → BtRec}

theorem kept_btRefresh (nBts btBuckets currTn : Nat) : (btRefresh nBts btBuckets (fun i => i) currTn).Kept [] := by
  refine ⟨List.Perm.refl _, fun i hi _ => ?_, ?_, fun i _ b hb => absurd hb (by simp [btRefresh]), fun i _ => Nat.zero_le _⟩
  · exact List.mem_filter.2 ⟨hi, by simp⟩
  · refine List.pairwise_lt_range.imp fun {i j} hij _ hj => absurd ?_ hj
    simp only [btRefresh]
    rw [if_neg (by omega)]

/-- What the table keeps says nothing of the numbers of the kills but that they are not greater. -/
theorem Inv.of_recs (h : t.Inv updates currTn) (heq : ∀ j, (recs j).blk = (t.recs j).blk ∧ (recs j).tn = (t.recs j).tn) :
    { t with recs := recs }.Inv updates currTn := by
  have hblk : ∀ j, (recs j).blk = (t.recs j).blk := fun j => (heq j).1
  have htn : ∀ j, (recs j).tn = (t.recs j).tn := fun j => (heq j).2
  constructor
  case queue_nodup => exact h.queue_nodup
  case queue_length => exact h.queue_length
  case queue_pos => exact h.queue_pos
  case chain_nodup => exact h.chain_nodup
  case chain_sub => exact h.chain_sub
  case placed => simpa only [hblk, bucket] using h.placed
  case unique => simpa only [hblk] using h.unique
  case sorted => simpa only [hblk, htn] using h.sorted
  case tn_le => simpa only [htn] using h.tn_le
  case update_le => exact h.update_le
  case rec_tn => simpa only [hblk, htn] using h.rec_tn
  case evicted => simpa only [hblk, htn] using h.evicted

theorem Kept.of_recs (h : t.Kept updates) (heq : ∀ j, (recs j).blk = (t.recs j).blk ∧ (recs j).tn = (t.recs j).tn)
    (hkill : ∀ j ∈ t.tnque, (recs j).killtn ≤ (recs j).tn) : { t with recs := recs }.Kept updates := by
  have hblk : ∀ j, (recs j).blk = (t.recs j).blk := fun j => (heq j).1
  have htn : ∀ j, (recs j).tn = (t.recs j).tn := fun j => (heq j).2
  exact ⟨h.all, by simpa only [hblk] using h.first, by simpa only [htn] using h.order, by simpa only [hblk, htn] using h.last, hkill⟩

end BlockTable

/-- In every run the memory is that of a table. -/
theorem BtRun.rep {lay : BtLayout} {startTn tn : Nat} {updates : List (Nat × Nat)} {m : BtMem} (h : BtRun lay startTn updates tn m)
    (hpos : 0 < lay.nBts) (hn : lay.nBts ≤ lay.btBuckets) : ∃ t : BlockTable, BtRep lay t m ∧ t.Inv updates tn ∧ t.Kept updates := by
  induction h with
  | start =>
    exact ⟨_, btRep_btRefresh hpos hn startTn, BlockTable.inv_btRefresh _ _ _ _ hpos, BlockTable.kept_btRefresh _ _ _⟩
  | @put updates tn lclTn block m m' cache bt h hle hput ih =>
    obtain ⟨t, hrep, hinv, hk⟩ := ih
    have hinv' := hinv.mono hle
    rcases hrep.btPut_sim hinv' hk hn block cache with hnone | ⟨bt', m₂, t', hsome, ht, hrep'⟩
    · rw [hnone] at hput
      exact absurd (congrArg Prod.fst (Except.ok.inj hput)) (by simp)
    · rw [hsome] at hput
      obtain ⟨-, rfl⟩ := Prod.mk.inj (Except.ok.inj hput)
      obtain ⟨t₂, ht₂, hinv₂⟩ := hinv'.btPut block
      obtain rfl := Option.some.inj (ht.symm.trans ht₂)
      exact ⟨t', hrep', hinv₂, hk.btPut hinv' block ht⟩
  | @refused updates tn lclTn block m m' cache h hle hput ih =>
    obtain ⟨t, hrep, hinv, hk⟩ := ih
    have hinv' := hinv.mono hle
    rcases hrep.btPut_sim hinv' hk hn block cache with hnone | ⟨bt', m₂, -, hsome, -, -⟩
    · rw [hnone] at hput
      obtain ⟨-, rfl⟩ := Prod.mk.inj (Except.ok.inj hput)
      exact ⟨t, hrep, hinv', hk⟩
    · rw [hsome] at hput
      exact absurd (congrArg Prod.fst (Except.ok.inj hput)) (by simp)
  | @mark updates tn i m h hi cacheIndex kill ih =>
    obtain ⟨t, hrep, hinv, hk⟩ := ih
    have hmem : i ∈ t.tnque := hk.all.mem_iff.2 (List.mem_range.2 (hrep.nBts.symm ▸ hi))
    obtain ⟨recs, heq, hrep', hkill⟩ := hrep.mark hk hmem cacheIndex kill
    exact ⟨_, hrep', hinv.of_recs heq, hk.of_recs heq hkill⟩

end Gtm

/-!
## The queues of the block table over runs

From the table that `bt_refresh` makes, whatever `bt_put` is called for, the self-relative queues stay consistent, a block has at most one
record, which `bt_get` finds, and the records remember the last updates.
-/

namespace Gtm

open BtLayout

/-- In the table as it is initialized the first record of the queue has a number, and the others have none. -/
theorem tnque_order_fails : ¬∀ (lay : BtLayout) (startTn : Nat) (updates : List (Nat × Nat)) (tn : Nat) (m : BtMem),
    BtRun lay startTn updates tn m → ∀ i < lay.nBts, ∀ j < lay.nBts, m.que.next (lay.th i) = lay.th j →
      (m.bt (lay.btBase i)).tn ≤ (m.bt (lay.btBase j)).tn := by
  intro h
  have hnext : (BtMem.btRefresh ⟨0, 2, 2⟩ 5).que.next (BtLayout.th ⟨0, 2, 2⟩ 0) = BtLayout.th ⟨0, 2, 2⟩ 1 := by decide
  have hle := h ⟨0, 2, 2⟩ 5 [] 5 _ .start 0 (by decide) 1 (by decide) hnext
  exact absurd hle (by decide)

/-- Over every run: the records are all on `tnque`, those that were never used in front of the others, and the numbers other than zero
are in order; each record is on one chain, that of its block or the one it started on, and no block has two; all links are consistent,
also behind an insertion at a head; `bt_get` finds the records; a record has the number of the last update of its block, and a number
of the last kill that is not greater; a block without a record was updated before every record was; and `bt_put` does not fail. -/
theorem btRun_queues {lay : BtLayout} {startTn tn : Nat} {updates : List (Nat × Nat)} {m : BtMem} (h : BtRun lay startTn updates tn m)
    (hpos : 0 < lay.nBts) (hn : lay.nBts ≤ lay.btBuckets) :
    ∃ (queue : List Nat) (chain : Nat → List Nat),
      m.que.Que (lay.thBase :: queue.map lay.th) ∧ queue.Perm (List.range lay.nBts) ∧
      (∀ c < lay.btBuckets, m.que.Que (lay.hdr c :: (chain c).map lay.btBase)) ∧
      (∀ i < lay.nBts, ∃ c < lay.btBuckets, i ∈ chain c ∧ (∀ c', i ∈ chain c' → c' = c) ∧
        ((m.bt (lay.btBase i)).blk = btNotvalid ∧ c = i ∨ ∃ b : Nat, (m.bt (lay.btBase i)).blk = b ∧ c = b % lay.btBuckets)) ∧
      (∀ i < lay.nBts, ∀ j < lay.nBts, (m.bt (lay.btBase i)).blk ≠ btNotvalid →
        (m.bt (lay.btBase i)).blk = (m.bt (lay.btBase j)).blk → i = j) ∧
      (∀ b a, (m.btGet lay b).1 = some a ↔ ∃ i < lay.nBts, a = lay.btBase i ∧ (m.bt a).blk = b) ∧
      (queue.Pairwise fun i j => (m.bt (lay.btBase i)).blk ≠ btNotvalid → (m.bt (lay.btBase j)).blk ≠ btNotvalid) ∧
      (queue.Pairwise fun i j => (m.bt (lay.btBase i)).tn ≠ 0 → (m.bt (lay.btBase j)).tn ≠ 0 →
        (m.bt (lay.btBase i)).tn ≤ (m.bt (lay.btBase j)).tn) ∧
      (∀ i < lay.nBts, ∀ b : Nat, (m.bt (lay.btBase i)).blk = b →
        (updates.filter fun u => u.2 = b).getLast? = some ((m.bt (lay.btBase i)).tn, b)) ∧
      (∀ i < lay.nBts, (m.bt (lay.btBase i)).killtn ≤ (m.bt (lay.btBase i)).tn) ∧
      (∀ u b, (u, b) ∈ updates → (∀ i < lay.nBts, (m.bt (lay.btBase i)).blk ≠ b) → ∀ i < lay.nBts, u ≤ (m.bt (lay.btBase i)).tn) ∧
      (∀ cache block lclTn, tn ≤ lclTn → ∃ r, m.btPut lay cache block lclTn = .ok r) ∧
      (∀ a, a ∉ lay.thBase :: queue.map lay.th → (m.que.insqh a lay.thBase).Que (lay.thBase :: a :: queue.map lay.th)) ∧
      ∀ c < lay.btBuckets, ∀ a, a ∉ lay.hdr c :: (chain c).map lay.btBase →
        (m.que.insqh a (lay.hdr c)).Que (lay.hdr c :: a :: (chain c).map lay.btBase) := by
  obtain ⟨t, hrep, hinv, hk⟩ := h.rep hpos hn
  have hmem : ∀ i, i ∈ t.tnque ↔ i < lay.nBts := fun i => by rw [hk.all.mem_iff, List.mem_range, hrep.nBts]
  have hrec : ∀ i < lay.nBts, RecRep (t.recs i) (m.bt (lay.btBase i)) := fun i hi => hrep.recs i ((hmem i).2 hi)
  have hbuckets : 0 < lay.btBuckets := Nat.lt_of_lt_of_le hpos hn
  have hnone : ∀ i < lay.nBts, ((m.bt (lay.btBase i)).blk = btNotvalid ↔ (t.recs i).blk = none) := fun i hi => by
    rw [(hrec i hi).blk]
    cases (t.recs i).blk with
    | none => simp
    | some b =>
      simp only [btNotvalid, reduceCtorEq]
  have hqueue : ∀ i ∈ t.tnque, i < lay.nBts := fun i => (hmem i).1
  refine ⟨t.tnque, t.chain, hrep.queues.tnque, hrep.nBts ▸ hk.all, hrep.queues.chains, fun i hi => ?_, fun i hi j hj hused heq => ?_,
    fun b a => ?_, ?_, ?_, fun i hi b hb => ?_, fun i hi => ?_, fun u b hu habs i hi => ?_, fun cache block lclTn hle => ?_,
    fun a ha => (QueMem.insqh_que hrep.queues.tnque ha).1, fun c hc a ha => (QueMem.insqh_que (hrep.queues.chains c hc) ha).1⟩
  · cases hblk : (t.recs i).blk with
    | none =>
      have hon := hk.first i ((hmem i).2 hi) hblk
      exact ⟨i, Nat.lt_of_lt_of_le hi hn, hon, fun c' hc' => hrep.queues.apart i c' i hc' hon, .inl ⟨(hnone i hi).2 hblk, rfl⟩⟩
    | some b =>
      have hon := hinv.placed i ((hmem i).2 hi) b hblk
      rw [BlockTable.bucket, hrep.btBuckets] at hon
      exact ⟨_, Nat.mod_lt b hbuckets, hon, fun c' hc' => hrep.queues.apart i c' _ hc' hon,
        .inr ⟨b, ((hrec i hi).blk_eq_iff b).2 hblk, rfl⟩⟩
  · cases hblk : (t.recs i).blk with
    | none => exact absurd ((hnone i hi).2 hblk) hused
    | some b =>
      have hb := ((hrec i hi).blk_eq_iff b).2 hblk
      exact hinv.unique i ((hmem i).2 hi) j ((hmem j).2 hj) b hblk (((hrec j hj).blk_eq_iff b).1 (heq.symm.trans hb))
  · rw [hrep.btGet_eq hinv hbuckets, Option.map_eq_some_iff]
    constructor
    · rintro ⟨i, hfind, rfl⟩
      obtain ⟨hi, hb⟩ := hinv.find_some hfind
      exact ⟨i, hqueue i hi, rfl, ((hrec i (hqueue i hi)).blk_eq_iff b).2 hb⟩
    · rintro ⟨i, hi, rfl, hb⟩
      have hb' := ((hrec i hi).blk_eq_iff b).1 hb
      cases hfind : (t.chain (t.bucket b)).find? fun i => (t.recs i).blk = some b with
      | none => exact absurd hb' (hinv.find_none hfind i ((hmem i).2 hi))
      | some j =>
        obtain ⟨hj, hjb⟩ := hinv.find_some hfind
        exact ⟨j, rfl, congrArg lay.btBase (hinv.unique j hj i ((hmem i).2 hi) b hjb hb')⟩
  · refine hinv.sorted.imp_of_mem fun {i j} hi hj hij hused => ?_
    rw [Ne, hnone j (hqueue j hj)]
    exact (hij fun hn => hused ((hnone i (hqueue i hi)).2 hn)).1
  · refine hk.order.imp_of_mem fun {i j} hi hj hij => ?_
    rw [(hrec i (hqueue i hi)).tn, (hrec j (hqueue j hj)).tn]
    exact hij
  · rw [(hrec i hi).tn]
    exact hk.last i ((hmem i).2 hi) b (((hrec i hi).blk_eq_iff b).1 hb)
  · rw [(hrec i hi).killtn, (hrec i hi).tn]
    exact hk.kill i ((hmem i).2 hi)
  · rw [(hrec i hi).tn]
    refine (hinv.evicted u b hu (fun j hj hb => ?_) i ((hmem i).2 hi)).2
    exact habs j (hqueue j hj) (((hrec j (hqueue j hj)).blk_eq_iff b).2 hb)
  · rcases hrep.btPut_sim (hinv.mono hle) hk hn block cache with hput | ⟨bt, m', t', hput, -, -⟩
    · exact ⟨_, hput⟩
    · exact ⟨_, hput⟩

/-- A table of two records, behind a `bt_put` for block 7. -/
theorem btRun_queues_two : ∃ m, BtRun ⟨0, 2, 2⟩ 5 [(5, 7)] 5 m ∧ ∃ queue : List Nat,
    m.que.Que (BtLayout.thBase ⟨0, 2, 2⟩ :: queue.map (BtLayout.th ⟨0, 2, 2⟩)) ∧ queue.Perm (List.range 2) := by
  have hput : ∃ bt m, (BtMem.btRefresh ⟨0, 2, 2⟩ 5).btPut ⟨0, 2, 2⟩ ⟨fun _ => false, fun _ => false⟩ 7 5 = .ok (some bt, m) :=
    ⟨_, _, rfl⟩
  obtain ⟨bt, m, hput⟩ := hput
  have hrun := BtRun.put .start (Nat.le_refl 5) hput
  obtain ⟨queue, -, hque, hperm, -⟩ := btRun_queues hrun (by decide) (by decide)
  exact ⟨m, hrun, queue, hque, hperm⟩

end Gtm
