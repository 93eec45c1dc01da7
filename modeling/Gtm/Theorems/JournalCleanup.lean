import Gtm.Db.JnlPhase2

/-!
# Cleaning up the phase-2 commits

The reservations between the two indices are a queue. A cleanup takes its longest completed prefix off.
-/

namespace Gtm

/-- That many reservations from index `i` on. -/
def phs2Cmts (array : Nat → Phs2Cmt) (i n : Nat) : List Phs2Cmt := (List.range' i n).map array

/-- The reservations from `index1` to `index2` around the array, in order. -/
def pendingCmts (array : Nat → Phs2Cmt) (index1 index2 : Nat) : List Phs2Cmt :=
  if index1 ≤ index2 then phs2Cmts array index1 (index2 - index1)
  else phs2Cmts array index1 (jnlPhase2CommitArraySize - index1) ++ phs2Cmts array 0 index2

/-- The address behind a reservation. -/
def Phs2Cmt.endFreeaddr (e : Phs2Cmt) : Nat := e.startFreeaddr + e.totJrecLen

/-- The ring holds reservations, each starts where the one before ends, and `freeaddr` is in the first. -/
structure JnlBuffer.RingOk (jbp : JnlBuffer) : Prop where
  index1_lt : jbp.phase2CommitIndex1 < jnlPhase2CommitArraySize
  index2_lt : jbp.phase2CommitIndex2 < jnlPhase2CommitArraySize
  ne : jbp.phase2CommitIndex1 ≠ jbp.phase2CommitIndex2
  abut : (pendingCmts jbp.phase2CommitArray jbp.phase2CommitIndex1 jbp.phase2CommitIndex2).IsChain
    fun a b => a.endFreeaddr = b.startFreeaddr
  start_le : (jbp.phase2CommitArray jbp.phase2CommitIndex1).startFreeaddr ≤ jbp.freeaddr
  lt_end : jbp.freeaddr < (jbp.phase2CommitArray jbp.phase2CommitIndex1).endFreeaddr

/-- `freeaddr` when the reservations `done` are taken off and `rest` stay. -/
def freeaddrAfter (freeaddr : Nat) (done rest : List Phs2Cmt) : Nat :=
  match done.getLast?, rest with
  | none, _ => freeaddr
  | some _, e :: _ => e.startFreeaddr
  | some e, [] => e.startFreeaddr + e.totJrecLen

/-- A reservation of a dead process may have been completed, if the cleanup is in crit. -/
def Salvaged (env : Phs2Env) (e e' : Phs2Cmt) : Prop :=
  e' = e ∨ env.nowCrit = true ∧ e.processId ≠ env.processId ∧ env.isProcAlive e.processId = false ∧
    e' = { e with writeComplete := true }

/-- What a cleanup does: reservations of dead processes may have been completed, the longest completed prefix `done` of the queue
is taken off, and `freeaddr` follows. -/
structure CleanedUp (env : Phs2Env) (jbp jbp' : JnlBuffer) (pending : List Phs2Cmt) : Prop where
  salvaged : ∀ i, Salvaged env (jbp.phase2CommitArray i) (jbp'.phase2CommitArray i)
  index1_lt : jbp'.phase2CommitIndex1 < jnlPhase2CommitArraySize
  index2 : jbp'.phase2CommitIndex2 = jbp.phase2CommitIndex2
  rest : pendingCmts jbp'.phase2CommitArray jbp'.phase2CommitIndex1 jbp'.phase2CommitIndex2 = pending.dropWhile (·.writeComplete)
  freeaddr : jbp'.freeaddr = freeaddrAfter jbp.freeaddr (pending.takeWhile (·.writeComplete)) (pending.dropWhile (·.writeComplete))
  forward : jbp.freeaddr ≤ jbp'.freeaddr
  complete : ∀ e ∈ pending, 0 < e.totJrecLen → e.endFreeaddr ≤ jbp'.freeaddr → e.writeComplete = true

section
variable {env : Phs2Env} {array : Nat → Phs2Cmt}

/-! ## The scan -/

theorem phs2Cmts_succ (array : Nat → Phs2Cmt) (i n : Nat) : phs2Cmts array i (n + 1) = array i :: phs2Cmts array (i + 1) n := rfl

/-- The scan over a segment stops behind its longest completed prefix. -/
theorem iterateUntilIncomplete_spec (array : Nat → Phs2Cmt) (n i : Nat) : ∃ k ≤ n, iterateUntilIncomplete array n i = i + k ∧
    (phs2Cmts array i n).takeWhile (·.writeComplete) = phs2Cmts array i k ∧
    (phs2Cmts array i n).dropWhile (·.writeComplete) = phs2Cmts array (i + k) (n - k) := by
  induction n generalizing i with
  | zero => exact ⟨0, le_refl _, rfl, rfl, rfl⟩
  | succ n ih =>
    rw [phs2Cmts_succ, iterateUntilIncomplete, List.takeWhile_cons, List.dropWhile_cons]
    by_cases hc : (array i).writeComplete = true
    · obtain ⟨k, hk, hrun, htake, hdrop⟩ := ih (i + 1)
      refine ⟨k + 1, by omega, ?_⟩
      rw [if_pos hc, if_pos hc, if_pos hc, hrun, htake, hdrop, Nat.add_sub_add_right, Nat.add_right_comm, Nat.add_assoc]
      exact ⟨rfl, rfl, rfl⟩
    · rw [if_neg hc, if_neg hc, if_neg hc]
      exact ⟨0, by omega, rfl, rfl, rfl⟩

/-- What the scan leaves: `done` is taken off and `rest` stays, and `phs2cmt` stands behind `done` unless that would be `maxCmt`. -/
structure Scanned (array : Nat → Phs2Cmt) (index2 : Nat) (done rest : List Phs2Cmt) (phs2cmt maxCmt index1 : Nat) : Prop where
  index1_lt : index1 < jnlPhase2CommitArraySize
  stays : pendingCmts array index1 index2 = rest
  next : phs2cmt < maxCmt → rest.head? = some (array phs2cmt)
  last : ¬phs2cmt < maxCmt → rest = [] ∧ 0 < phs2cmt ∧ done.getLast? = some (array (phs2cmt - 1))

theorem getLast?_phs2Cmts {i n : Nat} (hn : 0 < n) : (phs2Cmts array i n).getLast? = some (array (i + n - 1)) := by
  obtain ⟨n, rfl⟩ := Nat.exists_eq_succ_of_ne_zero hn.ne'
  simp [phs2Cmts, List.range'_concat]

theorem head?_phs2Cmts {i n : Nat} (hn : 0 < n) : (phs2Cmts array i n).head? = some (array i) := by
  obtain ⟨n, rfl⟩ := Nat.exists_eq_succ_of_ne_zero hn.ne'
  rfl

theorem phs2Scan_spec {index1 index2 : Nat} (h1 : index1 < jnlPhase2CommitArraySize) (h2 : index2 < jnlPhase2CommitArraySize)
    (hne : index1 ≠ index2) : Scanned array index2 ((pendingCmts array index1 index2).takeWhile (·.writeComplete))
      ((pendingCmts array index1 index2).dropWhile (·.writeComplete)) (phs2Scan array index1 index2).1
      (phs2Scan array index1 index2).2.1 (phs2Scan array index1 index2).2.2 := by
  rw [phs2Scan, pendingCmts]
  by_cases hlt : index1 < index2
  · obtain ⟨k, hk, hrun, htake, hdrop⟩ := iterateUntilIncomplete_spec array (index2 - index1) index1
    rw [if_pos hlt, if_pos hlt.le, hrun, htake, hdrop]
    dsimp only
    refine ⟨by omega, by rw [pendingCmts, if_pos (by omega), Nat.sub_sub], fun hmax => head?_phs2Cmts (by omega), fun hmax => ?_⟩
    · obtain rfl : index2 - index1 = k := by omega
      exact ⟨by rw [Nat.sub_self]; rfl, by omega, getLast?_phs2Cmts (by omega)⟩
  · obtain ⟨k, hk, hrun, htake, hdrop⟩ := iterateUntilIncomplete_spec array (jnlPhase2CommitArraySize - index1) index1
    rw [if_neg hlt, if_neg (by omega)]
    dsimp only
    rw [hrun]
    by_cases htop : index1 + k = jnlPhase2CommitArraySize
    · -- the upper segment is complete, and the scan goes on at the beginning of the array
      obtain rfl : jnlPhase2CommitArraySize - index1 = k := by omega
      have hall := List.takeWhile_eq_self_iff.1 htake
      rw [if_pos htop, List.takeWhile_append_of_pos hall, List.dropWhile_append_of_pos hall]
      obtain ⟨j, hj, hrun, htake, hdrop⟩ := iterateUntilIncomplete_spec array index2 0
      rw [Nat.zero_add] at hrun hdrop
      rw [htake, hdrop, hrun]
      have hrest : pendingCmts array j index2 = phs2Cmts array j (index2 - j) := by rw [pendingCmts, if_pos hj]
      by_cases hzero : index2 = 0
      · obtain rfl : j = 0 := by omega
        subst hzero
        rw [if_neg (by simp)]
        refine ⟨h2, hrest, fun hmax => absurd hmax (by dsimp only; omega), fun _ => ⟨rfl, show 0 < index1 + _ by omega, ?_⟩⟩
        rw [show phs2Cmts array 0 0 = [] from rfl, List.append_nil]
        exact getLast?_phs2Cmts (by omega)
      · rw [if_pos hzero, show (if j = index2 then index2 else j) = j by split <;> omega]
        refine ⟨show j < _ by omega, hrest, fun hmax => head?_phs2Cmts (Nat.sub_pos_of_lt hmax), fun hmax => ?_⟩
        obtain rfl : index2 = j := by dsimp only at hmax; omega
        refine ⟨by rw [Nat.sub_self]; rfl, Nat.pos_of_ne_zero hzero, ?_⟩
        rw [List.getLast?_append, getLast?_phs2Cmts (by omega), Nat.zero_add]
        rfl
    · obtain ⟨m, hm⟩ : ∃ m, jnlPhase2CommitArraySize - index1 - k = m + 1 := ⟨jnlPhase2CommitArraySize - index1 - k - 1, by omega⟩
      rw [hm, phs2Cmts_succ] at hdrop
      rw [if_neg htop, List.dropWhile_append, hdrop, if_neg (by simp)]
      dsimp only
      refine ⟨by omega, ?_, fun _ => rfl, fun hmax => absurd (by omega) hmax⟩
      rw [pendingCmts, if_neg (by omega), ← Nat.sub_sub, hm, phs2Cmts_succ]

/-! ## The search for dead processes -/

theorem salvageLoop_salvaged (hcrit : env.nowCrit = true) (cnt deadCmt : Nat) (array : Nat → Phs2Cmt) (i : Nat) :
    Salvaged env (array i) (salvageLoop env cnt deadCmt array i) := by
  induction cnt generalizing deadCmt array with
  | zero => exact .inl rfl
  | succ cnt ih =>
    rw [salvageLoop]
    by_cases hdone : (array deadCmt).writeComplete = true
    · exact .inl (by rw [if_pos hdone])
    by_cases hself : (array deadCmt).processId = env.processId
    · exact .inl (by rw [if_neg hdone, if_pos hself])
    by_cases halive : env.isProcAlive (array deadCmt).processId = true
    · exact .inl (by rw [if_neg hdone, if_neg hself, if_pos halive])
    rw [if_neg hdone, if_neg hself, if_neg halive]
    have hrest := ih (deadCmt + 1) (jnlPhase2Salvage array deadCmt)
    by_cases hi : i = deadCmt
    · subst hi
      rw [jnlPhase2Salvage, Function.update_self] at hrest
      refine .inr ⟨hcrit, hself, by simpa using halive, ?_⟩
      rcases hrest with h | ⟨-, -, -, h⟩ <;> exact h
    · rwa [jnlPhase2Salvage, Function.update_of_ne hi] at hrest

/-- Completing a reservation leaves it where it is. -/
theorem Salvaged.span {e e' : Phs2Cmt} (h : Salvaged env e e') : e'.startFreeaddr = e.startFreeaddr ∧ e'.endFreeaddr = e.endFreeaddr := by
  rcases h with rfl | ⟨-, -, -, rfl⟩ <;> exact ⟨rfl, rfl⟩

/-! ## The free address -/

theorem pendingCmts_cons {index1 index2 : Nat} (h1 : index1 < jnlPhase2CommitArraySize) (hne : index1 ≠ index2) :
    ∃ l, pendingCmts array index1 index2 = array index1 :: l := by
  have hcons : ∀ n, 0 < n → ∃ l, phs2Cmts array index1 n = array index1 :: l := fun n hn => by
    obtain ⟨n, rfl⟩ := Nat.exists_eq_succ_of_ne_zero hn.ne'
    exact ⟨_, rfl⟩
  rw [pendingCmts]
  split
  · exact hcons _ (by omega)
  · obtain ⟨l, hl⟩ := hcons (jnlPhase2CommitArraySize - index1) (by omega)
    exact ⟨l ++ phs2Cmts array 0 index2, by rw [hl]; rfl⟩

theorem pendingCmts_eq_map (index1 index2 : Nat) : ∃ is : List Nat, ∀ array, pendingCmts array index1 index2 = is.map array := by
  by_cases h : index1 ≤ index2
  · exact ⟨_, fun array => by rw [pendingCmts, if_pos h, phs2Cmts]⟩
  · exact ⟨_, fun array => by rw [pendingCmts, if_neg h, phs2Cmts, phs2Cmts, ← List.map_append]⟩

/-- Reservations that abut behind one start behind its end. -/
theorem end_le_start {e : Phs2Cmt} {l : List Phs2Cmt} (h : (e :: l).IsChain fun a b => a.endFreeaddr = b.startFreeaddr) :
    ∀ x ∈ l, e.endFreeaddr ≤ x.startFreeaddr := by
  induction l generalizing e with
  | nil => simp
  | cons b l ih =>
    obtain ⟨hb, hl⟩ := List.isChain_cons_cons.1 h
    rintro x (_ | ⟨_, hx⟩)
    · exact hb.le
    · exact (hb.le.trans (Nat.le_add_right _ _)).trans (ih hl x hx)

theorem freeaddrAfter_spec {e : Phs2Cmt} {l done rest : List Phs2Cmt} {freeaddr : Nat} (hsplit : done ++ rest = e :: l)
    (habut : (e :: l).IsChain fun a b => a.endFreeaddr = b.startFreeaddr) (hend : freeaddr < e.endFreeaddr) :
    freeaddr ≤ freeaddrAfter freeaddr done rest ∧ ∀ x ∈ rest, 0 < x.totJrecLen → ¬x.endFreeaddr ≤ freeaddrAfter freeaddr done rest := by
  have hlater : ∀ x ∈ l, freeaddr < x.startFreeaddr := fun x hx => hend.trans_le (end_le_start habut x hx)
  rcases List.eq_nil_or_concat done with rfl | ⟨d, c, rfl⟩
  · obtain rfl : rest = e :: l := hsplit
    refine ⟨le_refl _, ?_⟩
    rintro x (_ | ⟨_, hx⟩) -
    · exact not_le.2 hend
    · exact not_le.2 ((hlater x hx).trans_le (Nat.le_add_right _ _))
  · rw [List.concat_eq_append] at hsplit ⊢
    unfold freeaddrAfter
    rw [List.getLast?_concat]
    cases rest with
    | nil =>
      refine ⟨?_, by simp⟩
      have hc : c ∈ e :: l := by simp [← hsplit]
      rcases List.mem_cons.1 hc with rfl | hc
      · exact hend.le
      · exact (hlater c hc).le.trans (Nat.le_add_right _ _)
    | cons r rs =>
      have hr : r ∈ l := by
        cases d with
        | nil => simp [← (List.cons.inj hsplit).2]
        | cons => simp [← (List.cons.inj hsplit).2]
      rw [← hsplit] at habut
      refine ⟨(hlater r hr).le, ?_⟩
      rintro x (_ | ⟨_, hx⟩) hlen
      · exact not_le.2 (Nat.lt_add_of_pos_right hlen)
      · have := end_le_start (List.isChain_append.1 habut).2.1 x hx
        simp only [Phs2Cmt.endFreeaddr] at this ⊢
        omega

theorem Scanned.freeaddr {index1 index2 phs2cmt maxCmt : Nat} {done rest : List Phs2Cmt}
    (h : Scanned array index2 done rest phs2cmt maxCmt index1) (hne : done ≠ []) (freeaddr : Nat) :
    newFreeaddr array phs2cmt maxCmt = freeaddrAfter freeaddr done rest := by
  unfold freeaddrAfter newFreeaddr
  by_cases hlt : phs2cmt < maxCmt
  · obtain ⟨r, rs, rfl⟩ := List.exists_cons_of_ne_nil (l := rest) fun hnil => by simpa [hnil] using h.next hlt
    rw [if_pos hlt, List.getLast?_eq_some_getLast hne, Option.some.inj (h.next hlt)]
  · obtain ⟨rfl, hpos, hlast⟩ := h.last hlt
    rw [if_neg hlt, if_neg hpos.ne', hlast]

/-! ## The cleanup -/

/-- The search for dead processes changes the array, and then the scan runs if the first reservation is complete. -/
theorem jnlPhase2Cleanup_eq (env : Phs2Env) {jbp : JnlBuffer} (hne : jbp.phase2CommitIndex1 ≠ jbp.phase2CommitIndex2) :
    ∃ array, (∀ i, Salvaged env (jbp.phase2CommitArray i) (array i)) ∧ jnlPhase2Cleanup env jbp =
        if (array jbp.phase2CommitIndex1).writeComplete then
          let r := phs2Scan array jbp.phase2CommitIndex1 jbp.phase2CommitIndex2
          { { jbp with phase2CommitArray := array }.setFreeaddr (newFreeaddr array r.1 r.2.1) with phase2CommitIndex1 := r.2.2 }
        else { jbp with phase2CommitArray := array } := by
  rw [jnlPhase2Cleanup, if_neg hne]
  refine ⟨_, fun i => ?_, rfl⟩
  split
  · next hcrit => exact salvageLoop_salvaged hcrit.2 _ _ _ i
  · exact .inl rfl

/-- A cleanup takes exactly the longest completed prefix of the queue off, and `freeaddr` follows. -/
theorem jnlPhase2Cleanup_cleansUp (env : Phs2Env) {jbp : JnlBuffer} (h : jbp.RingOk) : CleanedUp env jbp (jnlPhase2Cleanup env jbp)
    (pendingCmts (jnlPhase2Cleanup env jbp).phase2CommitArray jbp.phase2CommitIndex1 jbp.phase2CommitIndex2) := by
  obtain ⟨array, hsalv, heq⟩ := jnlPhase2Cleanup_eq env h.ne
  have harray : (jnlPhase2Cleanup env jbp).phase2CommitArray = array := by
    rw [heq]
    split <;> rfl
  rw [harray]
  generalize hp : pendingCmts array jbp.phase2CommitIndex1 jbp.phase2CommitIndex2 = pending
  obtain ⟨l, hl⟩ := @pendingCmts_cons array _ _ h.index1_lt h.ne
  have hl' := hp.symm.trans hl
  -- the reservations stand where they stood
  have habut : pending.IsChain fun a b => a.endFreeaddr = b.startFreeaddr := by
    obtain ⟨is, his⟩ := pendingCmts_eq_map jbp.phase2CommitIndex1 jbp.phase2CommitIndex2
    have hchain := h.abut
    rw [his, List.isChain_map] at hchain
    rw [← hp, his, List.isChain_map]
    exact hchain.imp fun i j hij => by rw [(hsalv i).span.2, (hsalv j).span.1, hij]
  obtain ⟨hforward, hrest⟩ := @freeaddrAfter_spec _ _ _ _ jbp.freeaddr
    ((List.takeWhile_append_dropWhile (p := (·.writeComplete))).trans hl') (hl' ▸ habut) (h.lt_end.trans_eq (hsalv _).span.2.symm)
  have hcomplete : ∀ e ∈ pending, 0 < e.totJrecLen → e.endFreeaddr ≤ freeaddrAfter jbp.freeaddr
      (pending.takeWhile (·.writeComplete)) (pending.dropWhile (·.writeComplete)) → e.writeComplete = true := by
    intro e he hlen hle
    rw [← List.takeWhile_append_dropWhile (p := (·.writeComplete)) (l := pending), List.mem_append] at he
    rcases he with he | he
    · exact List.mem_takeWhile_imp he
    · exact absurd hle (hrest e he hlen)
  have hscan := @phs2Scan_spec array _ _ h.index1_lt h.index2_lt h.ne
  rw [hp] at hscan
  by_cases hdone : (array jbp.phase2CommitIndex1).writeComplete = true
  · have hfree := hscan.freeaddr (by rw [hl', List.takeWhile_cons_of_pos hdone]; simp) jbp.freeaddr
    rw [heq, if_pos hdone]
    exact ⟨hsalv, hscan.index1_lt, rfl, hscan.stays, hfree, hforward.trans_eq hfree.symm,
      fun e he hlen hle => hcomplete e he hlen (hle.trans_eq hfree)⟩
  · have hnone : pending.takeWhile (·.writeComplete) = [] ∧ pending.dropWhile (·.writeComplete) = pending := by
      rw [hl', List.takeWhile_cons_of_neg hdone, List.dropWhile_cons_of_neg hdone]
      exact ⟨rfl, rfl⟩
    rw [hnone.1, hnone.2] at hcomplete
    rw [heq, if_neg hdone]
    exact ⟨hsalv, h.index1_lt, rfl, hp.trans hnone.2.symm, by rw [hnone.1]; rfl, le_refl _, hcomplete⟩

/-- The last and the first slot of the array are taken, and the reservation in the last slot is complete. -/
theorem jnlPhase2Cleanup_cleansUp_wrapped : ∃ env jbp, jbp.RingOk ∧ CleanedUp env jbp (jnlPhase2Cleanup env jbp)
    (pendingCmts (jnlPhase2Cleanup env jbp).phase2CommitArray 4095 1) := by
  have hok : JnlBuffer.RingOk ⟨fun i => if i = 0 then ⟨7, 150, 30, false⟩ else ⟨7, 100, 50, true⟩, 4095, 1, 120, 120, 1000⟩ :=
    ⟨by decide, by decide, by decide, by simp [pendingCmts, phs2Cmts, jnlPhase2CommitArraySize, Phs2Cmt.endFreeaddr],
      by decide, by decide⟩
  exact ⟨⟨true, 8, fun _ => true⟩, _, hok, jnlPhase2Cleanup_cleansUp _ hok⟩

end

end Gtm
