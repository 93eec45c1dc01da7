import Gtm.Repl.Histinfo

/-!
# Chains of history records

The invariant of the records of an instance file. What makes a search along a chain find the newest record is `skipped`: a record
that a chain leaves out has no smaller sequence number than the one that leaves it out. `Behind` says this of a place in the chain
seen from the end of the file, and a step along the chain keeps it; adding a record and searching both go by such steps.
-/

namespace Gtm
namespace HistinfoAux

/-! ## The newest record of a stream -/

variable {hist : Nat → ReplHistinfo} {k : Nat} {s : Stream}

theorem newestBefore_eq_some {n : Nat} (h : newestBefore hist s k = some n) :
    n < k ∧ (hist n).strmIndex = s ∧ ∀ m, n < m → m < k → (hist m).strmIndex ≠ s := by
  induction k with
  | zero => cases h
  | succ k ih =>
    rw [newestBefore] at h
    by_cases hk : (hist k).strmIndex = s
    · rw [if_pos hk] at h
      cases h
      exact ⟨Nat.lt_succ_self _, hk, fun m h1 h2 => by omega⟩
    · rw [if_neg hk] at h
      obtain ⟨h1, h2, h3⟩ := ih h
      refine ⟨by omega, h2, fun m hm1 hm2 => ?_⟩
      rcases Nat.eq_or_lt_of_le (Nat.le_of_lt_succ hm2) with rfl | hlt
      · exact hk
      · exact h3 m hm1 hlt

theorem newestBefore_eq_none (h : newestBefore hist s k = none) : ∀ m, m < k → (hist m).strmIndex ≠ s := by
  induction k with
  | zero => exact fun m hm => absurd hm (Nat.not_lt_zero m)
  | succ k ih =>
    rw [newestBefore] at h
    by_cases hk : (hist k).strmIndex = s
    · rw [if_pos hk] at h
      cases h
    · rw [if_neg hk] at h
      intro m hm
      rcases Nat.eq_or_lt_of_le (Nat.le_of_lt_succ hm) with rfl | hlt
      · exact hk
      · exact ih h m hlt

theorem newestBefore_update (hist : Nat → ReplHistinfo) (s : Stream) (k : Nat) (h : ReplHistinfo) :
    ∀ n, n ≤ k → newestBefore (Function.update hist k h) s n = newestBefore hist s n := by
  intro n
  induction n with
  | zero => exact fun _ => rfl
  | succ n ih =>
    intro hn
    rw [newestBefore, newestBefore, Function.update_of_ne (by omega), ih (by omega)]

/-! ## The invariant -/

/-- No `UPDATERESYNC` record of stream `s` has a number above `m` and below `k`. -/
def Uncut (hist : Nat → ReplHistinfo) (s : Stream) (m k : Nat) : Prop :=
  ∀ j, m < j → j < k → (hist j).strmIndex = s → (hist j).historyType ≠ .updresync

/-- The first `k` records are as they should be. -/
structure Records (hist : Nat → ReplHistinfo) (k : Nat) : Prop where
  numbered : ∀ n, n < k → (hist n).histinfoNum = n
  sorted : ∀ m n, m ≤ n → n < k → (hist m).startSeqno ≤ (hist n).startSeqno
  last : ∀ n, n < k → ∀ s, (hist n).lastHistinfoNum s = newestBefore hist s n
  chain : ∀ n p, n < k → (hist n).prevHistinfoNum = some p →
    p < n ∧ (hist p).strmIndex = (hist n).strmIndex ∧ (hist p).seqno < (hist n).seqno
  cut : ∀ n p, n < k → (hist n).prevHistinfoNum = some p → Uncut hist (hist n).strmIndex p (n + 1)
  skipped : ∀ m n, m < n → n < k → (hist m).strmIndex = (hist n).strmIndex → (∀ p, (hist n).prevHistinfoNum = some p → p < m) →
    Uncut hist (hist n).strmIndex m (n + 1) → (hist n).seqno ≤ (hist m).seqno

theorem Records.mono {k' : Nat} (h : Records hist k) (hle : k' ≤ k) : Records hist k' where
  numbered := fun n hn => h.numbered n (by omega)
  sorted := fun m n hmn hn => h.sorted m n hmn (by omega)
  last := fun n hn => h.last n (by omega)
  chain := fun n p hn => h.chain n p (by omega)
  cut := fun n p hn => h.cut n p (by omega)
  skipped := fun m n hmn hn => h.skipped m n hmn (by omega)

/-- The invariant of an instance file. -/
structure Inv (inst : ReplInst) : Prop where
  alloc : inst.numHistinfo ≤ inst.numAllocHistinfo
  header : inst.HeaderNewest
  records : Records inst.hist inst.numHistinfo

/-! ## Places in a chain -/

/-- A place in the chain of stream `s`, or its end, seen from before record `k`: the records of the stream that were left out, back
to the last `UPDATERESYNC` record, have sequence numbers of `x` or more. -/
structure Behind (hist : Nat → ReplHistinfo) (k : Nat) (s : Stream) (x : Nat) (place : Option Nat) : Prop where
  at_ : ∀ p, place = some p → p < k ∧ (hist p).strmIndex = s ∧ Uncut hist s p k
  skipped : ∀ m, m < k → (hist m).strmIndex = s → (∀ p, place = some p → p < m) → Uncut hist s m k → x ≤ (hist m).seqno

/-- The newest record of the stream leaves nothing out. -/
theorem Behind.newest (hist : Nat → ReplHistinfo) (k : Nat) (s : Stream) (x : Nat) : Behind hist k s x (newestBefore hist s k) := by
  constructor
  · intro p hp
    obtain ⟨h1, h2, h3⟩ := newestBefore_eq_some hp
    exact ⟨h1, h2, fun j hj1 hj2 hj => absurd hj (h3 j hj1 hj2)⟩
  · intro m hm hs hlt _
    cases hn : newestBefore hist s k with
    | none => exact absurd hs (newestBefore_eq_none hn m hm)
    | some n => exact absurd hs ((newestBefore_eq_some hn).2.2 m (hlt n hn) hm)

/-- A step back along the chain from a record that does not have a smaller sequence number either. -/
theorem Behind.step {c : Nat} {x : Nat} (hr : Records hist k)
    (h : Behind hist k s x (some c)) (hx : x ≤ (hist c).seqno) : Behind hist k s x (hist c).prevHistinfoNum := by
  obtain ⟨hc, hs, hcut⟩ := h.at_ c rfl
  constructor
  · intro p hp
    obtain ⟨h1, h2, -⟩ := hr.chain c p hc hp
    refine ⟨by omega, by rw [h2, hs], fun j hj1 hj2 hj => ?_⟩
    rcases Nat.lt_or_ge c j with hcj | hjc
    · exact hcut j hcj hj2 hj
    · exact hr.cut c p hc hp j hj1 (by omega) (by rw [hj, hs])
  · intro m hm hms hlt huncut
    rcases Nat.lt_trichotomy m c with hmc | rfl | hcm
    · have := hr.skipped m c hmc hc (by rw [hms, hs]) hlt (fun j hj1 hj2 hj => huncut j hj1 (by omega) (by rw [hj, hs]))
      omega
    · exact hx
    · refine h.skipped m hm hms (fun p hp => ?_) huncut
      cases hp
      exact hcm

/-- The place before a record, seen from before that record, when no `UPDATERESYNC` record stands there. -/
theorem Behind.before {c : Nat} (hr : Records hist k) (hc : c < k) (ht : (hist c).historyType ≠ .updresync) :
    Behind hist c (hist c).strmIndex (hist c).seqno (hist c).prevHistinfoNum := by
  constructor
  · intro p hp
    obtain ⟨h1, h2, -⟩ := hr.chain c p hc hp
    exact ⟨h1, h2, fun j hj1 hj2 hj => hr.cut c p hc hp j hj1 (by omega) hj⟩
  · intro m hm hs hlt huncut
    refine hr.skipped m c hm hc hs hlt fun j hj1 hj2 hj => ?_
    rcases Nat.eq_or_lt_of_le (Nat.le_of_lt_succ hj2) with rfl | hjc
    · exact ht
    · exact huncut j hj1 hjc hj

/-- The walk back for a `NORESYNC` record of a stream other than `0`. -/
theorem Behind.noresync {inst : ReplInst} {x : Nat} (hs : s ≠ 0) (hr : Records inst.hist k) (fuel : Nat) :
    ∀ c, c < fuel → Behind inst.hist k s x (some c) → Behind inst.hist k s x (inst.noresyncPrev x fuel c) ∧
        ∀ p, inst.noresyncPrev x fuel c = some p → (inst.hist p).seqno < x := by
  induction fuel with
  | zero => exact fun c hc => absurd hc (Nat.not_lt_zero c)
  | succ fuel ih =>
    intro c hc h
    obtain ⟨hck, hcs, -⟩ := h.at_ c rfl
    have hseq : (inst.hist c).seqno = (inst.hist c).strmSeqno := by
      simp only [ReplHistinfo.seqno, ReplInst.curSeqno, hcs]
      exact if_pos (Fin.pos_iff_ne_zero.mpr hs)
    rw [ReplInst.noresyncPrev]
    by_cases hx : x ≤ (inst.hist c).strmSeqno
    · rw [if_pos hx]
      have hstep := h.step hr (by rw [hseq]; exact hx)
      cases hp : (inst.hist c).prevHistinfoNum with
      | none =>
        rw [hp] at hstep
        exact ⟨hstep, fun p h' => by cases h'⟩
      | some p =>
        rw [hp] at hstep
        obtain ⟨hpc, -, -⟩ := hr.chain c p hck hp
        exact ih p (by omega) hstep
    · rw [if_neg hx]
      refine ⟨h, fun p hp => ?_⟩
      cases hp
      omega

/-! ## A record more -/

/-- A record that can follow the first `k`. -/
structure Fits (hist : Nat → ReplHistinfo) (k : Nat) (h : ReplHistinfo) : Prop where
  numbered : h.histinfoNum = k
  sorted : ∀ m, m < k → (hist m).startSeqno ≤ h.startSeqno
  last : ∀ s, h.lastHistinfoNum s = newestBefore hist s k
  below : ∀ p, h.prevHistinfoNum = some p → (hist p).seqno < h.seqno
  prev : h.historyType ≠ .updresync → Behind hist k h.strmIndex h.seqno h.prevHistinfoNum
  updresync : h.historyType = .updresync → h.prevHistinfoNum = none

theorem Records.append {h : ReplHistinfo} (hr : Records hist k) (hf : Fits hist k h) : Records (Function.update hist k h) (k + 1) := by
  have hold : ∀ n, n < k → Function.update hist k h n = hist n := fun n hn => Function.update_of_ne (by omega) _ _
  have hnew : Function.update hist k h k = h := Function.update_self _ _ _
  have hcases : ∀ n, n < k + 1 → n = k ∨ n < k := fun n hn => by omega
  have hprev : ∀ p, h.prevHistinfoNum = some p →
      h.historyType ≠ .updresync ∧ p < k ∧ (hist p).strmIndex = h.strmIndex ∧ Uncut hist h.strmIndex p k := by
    intro p hp
    have hne : h.historyType ≠ .updresync := fun ht => by
      rw [hf.updresync ht] at hp
      cases hp
    exact ⟨hne, (hf.prev hne).at_ p hp⟩
  have huncut : ∀ s m j, j ≤ k → (Uncut (Function.update hist k h) s m j ↔ Uncut hist s m j) := by
    intro s m j hj
    constructor <;> intro hu i h1 h2
    · rw [← hold i (by omega)]
      exact hu i h1 h2
    · rw [hold i (by omega)]
      exact hu i h1 h2
  refine ⟨?_, ?_, ?_, ?_, ?_, ?_⟩
  · intro n hn
    rcases hcases n hn with rfl | hlt
    · rw [hnew]
      exact hf.numbered
    · rw [hold n hlt]
      exact hr.numbered n hlt
  · intro m n hmn hn
    rcases hcases n hn with rfl | hlt
    · rw [hnew]
      rcases Nat.eq_or_lt_of_le hmn with rfl | hmlt
      · rw [hnew]
      · rw [hold m hmlt]
        exact hf.sorted m hmlt
    · rw [hold n hlt, hold m (by omega)]
      exact hr.sorted m n hmn hlt
  · intro n hn s
    rw [newestBefore_update hist s k h n (by omega)]
    rcases hcases n hn with rfl | hlt
    · rw [hnew]
      exact hf.last s
    · rw [hold n hlt]
      exact hr.last n hlt s
  · intro n p hn hp
    rcases hcases n hn with rfl | hlt
    · rw [hnew] at hp ⊢
      obtain ⟨-, hpk, hps, -⟩ := hprev p hp
      rw [hold p hpk]
      exact ⟨hpk, hps, hf.below p hp⟩
    · rw [hold n hlt] at hp ⊢
      have hc := hr.chain n p hlt hp
      rw [hold p (by omega)]
      exact hc
  · intro n p hn hp j hj1 hj2 hj
    rcases hcases n hn with rfl | hlt
    · rw [hnew] at hp hj
      obtain ⟨hne, -, -, hcut⟩ := hprev p hp
      rcases hcases j hj2 with rfl | hjlt
      · rw [hnew]
        exact hne
      · rw [hold j hjlt] at hj ⊢
        exact hcut j hj1 hjlt hj
    · rw [hold n hlt] at hp hj
      rw [hold j (by omega)] at hj ⊢
      exact hr.cut n p hlt hp j hj1 hj2 hj
  · intro m n hmn hn hs hp hu
    rcases hcases n hn with rfl | hlt
    · rw [hold m hmn, hnew] at hs
      rw [hnew] at hp hu
      rw [hold m hmn, hnew]
      have hne : h.historyType ≠ .updresync := by
        have := hu n hmn (Nat.lt_succ_self n)
        rw [hnew] at this
        exact this rfl
      refine (hf.prev hne).skipped m hmn hs hp ((huncut _ m n (Nat.le_refl n)).mp fun j hj1 hj2 hj => ?_)
      exact hu j hj1 (by omega) hj
    · rw [hold m (by omega), hold n hlt] at hs ⊢
      rw [hold n hlt] at hp hu
      exact hr.skipped m n hmn hlt hs hp ((huncut _ m (n + 1) (by omega)).mp hu)

/-! ## Adding a record -/

variable {inst : ReplInst} {ctl : JnlpoolCtl} {h : ReplHistinfo}

/-- A record written at the end, or over the last one. -/
theorem Inv.write {num : Nat} (hi : Inv inst) (hle : num ≤ inst.numHistinfo) (hf : Fits inst.hist num h)
    (hlast : ∀ s, s ≠ h.strmIndex → inst.lastHistinfoNum s = newestBefore inst.hist s num) : Inv (inst.write ctl h num) where
  alloc := Nat.le_max_right _ _
  records := (hi.records.mono hle).append hf
  header := by
    intro s
    simp only [ReplInst.write, newestBefore, Function.update_self]
    by_cases hs : s = h.strmIndex
    · subst hs
      rw [Function.update_self, if_pos rfl]
    · rw [Function.update_of_ne hs, if_neg (Ne.symm hs), newestBefore_update _ _ _ _ _ (Nat.le_refl _)]
      exact hlast s hs

theorem seqno_of_ne_zero (hs : h.strmIndex ≠ 0) : h.seqno = h.strmSeqno := if_pos (Fin.pos_iff_ne_zero.mpr hs)

theorem seqno_of_eq_zero (hs : h.strmIndex = 0) : h.seqno = h.startSeqno := by
  simp [ReplHistinfo.seqno, ReplInst.curSeqno, hs]

/-- The place in the chain that a new record is put behind. -/
theorem prevFor_behind (hi : Inv inst) (ho : Ordered inst h) (hno : NoresyncOrdered inst h)
    (hsort : ∀ m, m < inst.numHistinfo → (inst.hist m).startSeqno ≤ h.startSeqno) (ht : h.historyType ≠ .updresync) {last : Nat}
    (hl : newestBefore inst.hist h.strmIndex inst.numHistinfo = some last) :
    Behind inst.hist inst.numHistinfo h.strmIndex h.seqno (inst.prevFor h last) ∧
      ∀ p, inst.prevFor h last = some p → (inst.hist p).seqno < h.seqno := by
  obtain ⟨hlt, hs, -⟩ := newestBefore_eq_some hl
  have hb : Behind inst.hist inst.numHistinfo h.strmIndex h.seqno (some last) := by
    rw [← hl]
    exact Behind.newest _ _ _ _
  -- the two outcomes that are not a walk
  have hkeep : (inst.hist last).seqno < h.seqno → inst.prevFor h last = some last →
      Behind inst.hist inst.numHistinfo h.strmIndex h.seqno (inst.prevFor h last) ∧
        ∀ p, inst.prevFor h last = some p → (inst.hist p).seqno < h.seqno := by
    intro hlt' he
    rw [he]
    exact ⟨hb, fun p hp => by cases hp; exact hlt'⟩
  have hskip : (inst.hist last).seqno = h.seqno → inst.prevFor h last = (inst.hist last).prevHistinfoNum →
      Behind inst.hist inst.numHistinfo h.strmIndex h.seqno (inst.prevFor h last) ∧
        ∀ p, inst.prevFor h last = some p → (inst.hist p).seqno < h.seqno := by
    intro heq he
    rw [he]
    refine ⟨hb.step hi.records (Nat.le_of_eq heq.symm), fun p hp => ?_⟩
    rw [← heq]
    exact (hi.records.chain last p hlt hp).2.2
  have hstart := hsort last hlt
  by_cases hz : h.strmIndex = 0
  · rw [hz] at hl
    have hseq : (inst.hist last).seqno = (inst.hist last).startSeqno := seqno_of_eq_zero (by rw [hs, hz])
    have hseq' : h.seqno = h.startSeqno := seqno_of_eq_zero hz
    by_cases hq : h.strmSeqno = (inst.hist last).strmSeqno
    · by_cases hq' : h.startSeqno = (inst.hist last).startSeqno
      · exact hskip (by omega) (by simp [ReplInst.prevFor, hq, hq'])
      · refine hkeep (by omega) ?_
        simp only [ReplInst.prevFor, if_pos hq, hz, ne_eq, not_true_eq_false, and_false, false_or, if_neg hq']
    · have hne : (inst.hist last).startSeqno ≠ h.startSeqno := fun he => hq (ho.start_eq hz last hl he).symm
      refine hkeep (by omega) ?_
      rw [ReplInst.prevFor, if_neg hq]
      by_cases hn : h.historyType = .noresync
      · have hle := hno hz hn last hl
        rw [if_pos hn]
        obtain ⟨n, hn'⟩ : ∃ n, inst.numHistinfo = n + 1 := ⟨inst.numHistinfo - 1, by omega⟩
        rw [hn', ReplInst.noresyncPrev, if_neg (by omega)]
      · rw [if_neg hn]
  · have hseq : (inst.hist last).seqno = (inst.hist last).strmSeqno := seqno_of_ne_zero (by rw [hs]; exact hz)
    have hseq' : h.seqno = h.strmSeqno := seqno_of_ne_zero hz
    by_cases hq : h.strmSeqno = (inst.hist last).strmSeqno
    · refine hskip (by omega) ?_
      rw [ReplInst.prevFor, if_pos hq, if_pos (Or.inl ⟨ho.strm_ne hz, hz⟩)]
    · by_cases hn : h.historyType = .noresync
      · have he : inst.prevFor h last = inst.noresyncPrev h.strmSeqno inst.numHistinfo last := by
          rw [ReplInst.prevFor, if_neg hq, if_pos hn]
        rw [he, hseq']
        rw [hseq'] at hb
        exact Behind.noresync hz hi.records inst.numHistinfo last hlt hb
      · have hnormal : h.historyType = .normal := by
          cases hty : h.historyType with
          | normal => rfl
          | updresync => exact absurd hty ht
          | noresync => exact absurd hty hn
        have hle := ho.strm_le hz hnormal last hl
        refine hkeep (by omega) ?_
        rw [ReplInst.prevFor, if_neg hq, if_neg hn]

section
variable (hi : Inv inst) (hsort : ∀ m, m < inst.numHistinfo → (inst.hist m).startSeqno ≤ h.startSeqno)
include hi hsort

/-- A record put at the end of the file. -/
theorem fits_append {last prev : Option Nat} (hl : last ≠ some inst.numHistinfo)
    (hprev : h.historyType ≠ .updresync → Behind inst.hist inst.numHistinfo h.strmIndex h.seqno prev ∧
      ∀ p, prev = some p → (inst.hist p).seqno < h.seqno) : Fits inst.hist inst.numHistinfo (inst.filled h inst.numHistinfo last prev) where
  numbered := rfl
  sorted := hsort
  last := by
    intro s
    simp only [ReplInst.filled, hl, false_and, if_false]
    exact hi.header s
  below := by
    intro p hp
    by_cases ht : h.historyType = .updresync
    · simp [ReplInst.filled, ht] at hp
    · simp only [ReplInst.filled, if_neg ht] at hp
      exact (hprev ht).2 p hp
  prev := by
    intro ht
    have ht' : h.historyType ≠ .updresync := ht
    simp only [ReplInst.filled, if_neg ht']
    exact (hprev ht').1
  updresync := fun ht => if_pos ht

/-- A record put over the last one of the file. -/
theorem fits_overwrite {last : Nat}
    (hl : newestBefore inst.hist h.strmIndex inst.numHistinfo = some last) (ho : inst.overwrites h last = true) :
    Fits inst.hist (inst.numHistinfo - 1) (inst.filled h (inst.numHistinfo - 1) (some last) (inst.prevFor h last)) := by
  simp only [ReplInst.overwrites, Bool.and_eq_true, decide_eq_true_eq] at ho
  obtain ⟨⟨⟨hq, hq'⟩, hnum⟩, hty⟩ := ho
  obtain ⟨hlt, hs, -⟩ := newestBefore_eq_some hl
  have hlast : inst.numHistinfo - 1 = last := by omega
  have hprev : inst.prevFor h last = (inst.hist last).prevHistinfoNum := by simp [ReplInst.prevFor, hq, hq']
  have hseq : h.seqno = (inst.hist last).seqno := by
    simp only [ReplHistinfo.seqno, ReplInst.curSeqno, hs, hq, hq']
  rw [hlast, hprev]
  refine ⟨rfl, fun m hm => hsort m (by omega), ?_, ?_, ?_, fun ht => if_pos ht⟩
  · intro s
    simp only [ReplInst.filled, hlast, true_and]
    by_cases hss : s = h.strmIndex
    · rw [if_pos hss]
      exact hi.records.last last hlt s
    · have := hi.header s
      rw [← hnum, newestBefore, if_neg (by rw [hs]; exact Ne.symm hss)] at this
      rw [if_neg hss, this]
  · intro p hp
    have hp' : (inst.hist last).prevHistinfoNum = some p := by
      by_cases ht : h.historyType = .updresync
      · simp [ReplInst.filled, ht] at hp
      · simpa [ReplInst.filled, ht] using hp
    exact Nat.lt_of_lt_of_eq (hi.records.chain last p hlt hp').2.2 hseq.symm
  · intro ht
    have ht' : h.historyType ≠ .updresync := ht
    simp only [ReplInst.filled, if_neg ht']
    have := Behind.before hi.records hlt (by rw [← hty]; exact ht')
    rw [hs, ← hseq] at this
    exact this

end

/-- Adding a record keeps the invariant. -/
theorem Inv.add {inst' : ReplInst} {histinfo : ReplHistinfo} (hi : Inv inst) (ho : Ordered inst (ReplInst.convert ctl histinfo))
    (hno : NoresyncOrdered inst (ReplInst.convert ctl histinfo)) (he : inst.histinfoAdd ctl histinfo = .ok inst') : Inv inst' := by
  rw [ReplInst.histinfoAdd] at he
  generalize ReplInst.convert ctl histinfo = h at ho hno he
  by_cases herr : 0 < inst.numHistinfo ∧ h.startSeqno < (inst.hist (inst.numHistinfo - 1)).startSeqno
  · rw [if_pos herr] at he
    cases he
  rw [if_neg herr] at he
  have hsort : ∀ m, m < inst.numHistinfo → (inst.hist m).startSeqno ≤ h.startSeqno := by
    intro m hm
    have := hi.records.sorted m (inst.numHistinfo - 1) (by omega) (by omega)
    omega
  cases hl : inst.lastHistinfoNum h.strmIndex with
  | none =>
    simp only [hl] at he
    cases he
    refine hi.write (Nat.le_refl _) (fits_append hi hsort (by simp) fun _ => ⟨?_, fun p hp => by cases hp⟩) (fun s _ => hi.header s)
    rw [← hl, hi.header]
    exact Behind.newest _ _ _ _
  | some last =>
    simp only [hl] at he
    rw [hi.header] at hl
    obtain ⟨hlt, hs, -⟩ := newestBefore_eq_some hl
    by_cases hsame : (inst.isSupplementary = false ∨ h.historyType ≠ .updresync) ∧ ReplInst.sameContent (inst.hist last) h = true
    · rw [if_pos hsame] at he
      cases he
      exact hi
    rw [if_neg hsame] at he
    cases he
    by_cases hov : inst.overwrites h last = true
    · rw [if_pos hov]
      refine hi.write (Nat.sub_le _ _) (fits_overwrite hi hsort hl hov) fun s hss => ?_
      simp only [ReplInst.overwrites, Bool.and_eq_true, decide_eq_true_eq] at hov
      have hnum := hov.1.2
      rw [hi.header, ← hnum, newestBefore, if_neg (by rw [hs]; exact Ne.symm hss), Nat.add_sub_cancel]
    · rw [if_neg hov]
      exact hi.write (Nat.le_refl _) (fits_append hi hsort (by simp; omega) fun ht => prevFor_behind hi ho hno hsort ht hl)
        (fun s _ => hi.header s)

/-! ## Searching -/

theorem histinfoGet_of_lt (hi : Inv inst) {n : Nat} (hn : n < inst.numHistinfo) : inst.histinfoGet n = some (inst.hist n) :=
  if_pos (Nat.lt_of_lt_of_le hn hi.alloc)

/-- What a search says about the records it may return: the one it found is the newest of them, or there is none. -/
def Found (inst : ReplInst) (seqno : Nat) (strm : Option Stream) (r : Option ReplHistinfo) : Prop :=
  (∃ n, r = some (inst.hist n) ∧ IsGreatest {n | inst.Eligible seqno strm n} n) ∨ (r = none ∧ ∀ n, ¬ inst.Eligible seqno strm n)

section
variable (hi : Inv inst)
include hi

/-- The search in one stream. -/
theorem findSeqnoLoop_stream (seqno : Nat) (s : Stream) (fuel : Nat) :
    ∀ place : Option Nat, (∀ c, place = some c → c < fuel) → 0 < fuel → Behind inst.hist inst.numHistinfo s seqno place →
      Found inst seqno (some s) (inst.findSeqnoLoop seqno (some s) fuel place) := by
  have hseq : ∀ n, (inst.hist n).strmIndex = s → (inst.hist n).seqno = ReplInst.curSeqno (some s) (inst.hist n) := by
    intro n hn
    rw [ReplHistinfo.seqno, hn]
  induction fuel with
  | zero => exact fun _ _ h0 => absurd h0 (Nat.lt_irrefl 0)
  | succ fuel ih =>
    intro place hc _ hb
    cases place with
    | none =>
      refine Or.inr ⟨rfl, fun n hn => ?_⟩
      obtain ⟨hnum, hlt, hel⟩ := hn
      obtain ⟨hns, hcut⟩ := hel s rfl
      have := hb.skipped n hnum hns (fun p hp => by cases hp) hcut
      rw [hseq n hns] at this
      omega
    | some c =>
      obtain ⟨hck, hcs, hcut⟩ := hb.at_ c rfl
      simp only [ReplInst.findSeqnoLoop, histinfoGet_of_lt hi hck]
      by_cases hlt : ReplInst.curSeqno (some s) (inst.hist c) < seqno
      · rw [if_pos hlt]
        refine Or.inl ⟨c, rfl, ⟨hck, hlt, fun s' hs' => ?_⟩, fun m hm => ?_⟩
        · cases hs'
          exact ⟨hcs, hcut⟩
        · obtain ⟨hnum, hlt', hel⟩ := hm
          obtain ⟨hms, hmcut⟩ := hel s rfl
          by_contra hcm
          have := hb.skipped m hnum hms (fun p hp => by cases hp; exact Nat.lt_of_not_le hcm) hmcut
          rw [hseq m hms] at this
          omega
      · rw [if_neg hlt]
        have hstep := hb.step hi.records (by rw [hseq c hcs]; omega)
        have hc' := hc c rfl
        by_cases h0 : 0 < fuel
        · refine ih _ (fun p hp => ?_) h0 hstep
          have := (hi.records.chain c p hck hp).1
          omega
        · -- no fuel is left only at record 0, where the chain ends
          cases hp : (inst.hist c).prevHistinfoNum with
          | none =>
            have hf0 : fuel = 0 := by omega
            rw [hp] at hstep
            refine Or.inr ⟨by subst hf0; rfl, fun n hn => ?_⟩
            obtain ⟨hnum, hlt', hel⟩ := hn
            obtain ⟨hns, hncut⟩ := hel s rfl
            have := hstep.skipped n hnum hns (fun p hp => by cases hp) hncut
            rw [hseq n hns] at this
            omega
          | some p => exact absurd (hi.records.chain c p hck hp).1 (by omega)

/-- The search in all streams. -/
theorem findSeqnoLoop_all (seqno : Nat) (fuel : Nat) : ∀ n, n ≤ inst.numHistinfo → n < fuel → (∀ m, inst.Eligible seqno none m → m < n) →
      Found inst seqno none (inst.findSeqnoLoop seqno none fuel (prevNum n)) := by
  induction fuel with
  | zero => exact fun n _ h => absurd h (Nat.not_lt_zero n)
  | succ fuel ih =>
    intro n hn hfuel hel
    cases n with
    | zero => exact Or.inr ⟨rfl, fun m hm => Nat.not_lt_zero m (hel m hm)⟩
    | succ c =>
      simp only [prevNum, ReplInst.findSeqnoLoop, histinfoGet_of_lt hi (show c < inst.numHistinfo by omega)]
      by_cases hlt : ReplInst.curSeqno none (inst.hist c) < seqno
      · rw [if_pos hlt]
        exact Or.inl ⟨c, rfl, ⟨by omega, hlt, fun s hs => by cases hs⟩, fun m hm => Nat.le_of_lt_succ (hel m hm)⟩
      · rw [if_neg hlt]
        refine ih c (by omega) (by omega) fun m hm => ?_
        rcases Nat.eq_or_lt_of_le (Nat.le_of_lt_succ (hel m hm)) with rfl | h'
        · exact absurd hm.2.1 hlt
        · exact h'

theorem found_histinfoFindSeqno (seqno : Nat) (strm : Option Stream) : Found inst seqno strm (inst.histinfoFindSeqno seqno strm) := by
  cases strm with
  | none => exact findSeqnoLoop_all hi seqno _ _ (Nat.le_refl _) (Nat.lt_succ_self _) (fun m hm => hm.1)
  | some s =>
    rw [ReplInst.histinfoFindSeqno]
    simp only [hi.header s]
    refine findSeqnoLoop_stream hi seqno s _ _ (fun c hc => ?_) (Nat.succ_pos _) (Behind.newest _ _ _ _)
    have := (newestBefore_eq_some hc).1
    omega

/-- A search returns the newest record it may return. -/
theorem Inv.findsNewest : inst.FindsNewest := by
  intro seqno strm
  rcases found_histinfoFindSeqno hi seqno strm with ⟨n, hr, hg⟩ | ⟨hr, hnone⟩
  · rw [hr]
    refine ⟨fun h => ⟨fun he => ⟨n, hg, Option.some.inj he⟩, ?_⟩, ⟨fun he => (by cases he), fun hall => absurd hg.1 (hall n)⟩⟩
    rintro ⟨m, hm, rfl⟩
    rw [hm.unique hg]
  · rw [hr]
    refine ⟨fun h => ⟨fun he => (by cases he), ?_⟩, ⟨fun _ => hnone, fun _ => rfl⟩⟩
    rintro ⟨m, hm, -⟩
    exact absurd hm.1 (hnone m)

/-! ## Truncation -/

/-- What a truncation leaves, in each of its cases. -/
theorem histinfoTruncate_cases (r : Nat) : (inst.histinfoTruncate r).1.hist = inst.hist ∧
      (inst.histinfoTruncate r).1.numAllocHistinfo = inst.numAllocHistinfo ∧
      (∀ n, n < (inst.histinfoTruncate r).1.numHistinfo ↔ n < inst.numHistinfo ∧ (inst.hist n).startSeqno < r) ∧
      (inst.histinfoTruncate r).1.HeaderNewest := by
  unfold ReplInst.histinfoTruncate
  by_cases h0 : inst.numHistinfo = 0
  · rw [if_pos h0]
    refine ⟨rfl, rfl, fun n => ?_, hi.header⟩
    simp [h0]
  rw [if_neg h0]
  rcases found_histinfoFindSeqno hi r none with ⟨n, hr, ⟨hn, hlt, -⟩, hmax⟩ | ⟨hr, hnone⟩
  · simp only [hr, hi.records.numbered n hn]
    have hleft : ∀ m, m < n + 1 ↔ m < inst.numHistinfo ∧ (inst.hist m).startSeqno < r := by
      intro m
      constructor
      · intro hm
        have := hi.records.sorted m n (by omega) hn
        exact ⟨by omega, Nat.lt_of_le_of_lt this hlt⟩
      · rintro ⟨hm, hmr⟩
        exact Nat.lt_succ_of_le (hmax ⟨hm, hmr, fun s hs => by cases hs⟩)
    by_cases hlast : n + 1 < inst.numHistinfo
    · rw [if_pos hlast]
      exact ⟨rfl, rfl, hleft, hi.records.last (n + 1) hlast⟩
    · rw [if_neg hlast]
      refine ⟨rfl, rfl, hleft, fun s => ?_⟩
      have he : n + 1 = inst.numHistinfo := by omega
      simp only [he]
      exact hi.header s
  · simp only [hr]
    refine ⟨trivial, trivial, fun n => ⟨fun hn => absurd hn (Nat.not_lt_zero n), fun hn => ?_⟩, fun s => rfl⟩
    exact absurd ⟨hn.1, hn.2, fun s hs => by cases hs⟩ (hnone n)

theorem Inv.truncatesTo : inst.TruncatesTo := by
  intro r
  obtain ⟨h1, -, h3, h4⟩ := histinfoTruncate_cases hi r
  exact ⟨h1, h3, h4⟩

/-- A truncation keeps the invariant. -/
theorem Inv.truncate (r : Nat) : Inv (inst.histinfoTruncate r).1 := by
  obtain ⟨hhist, halloc, hleft, hheader⟩ := histinfoTruncate_cases hi r
  have hle : (inst.histinfoTruncate r).1.numHistinfo ≤ inst.numHistinfo := by
    by_contra hgt
    have := ((hleft inst.numHistinfo).mp (by omega)).1
    omega
  refine ⟨?_, hheader, ?_⟩
  · rw [halloc]
    exact Nat.le_trans hle hi.alloc
  · rw [hhist]
    exact hi.records.mono hle

end

/-! ## Runs -/

theorem Inv.created (hc : inst.Created) : Inv inst := by
  obtain ⟨h0, hlast⟩ := hc
  refine ⟨by omega, fun s => by rw [h0, hlast s]; rfl, ?_⟩
  exact ⟨fun n hn => by omega, fun m n _ hn => by omega, fun n hn => by omega, fun n p hn => by omega, fun n p hn => by omega,
    fun m n _ hn => by omega⟩

/-- Every file of a run satisfies the invariant. -/
theorem inv_of_run (h : HistinfoRun (fun inst h => Ordered inst h ∧ NoresyncOrdered inst h) inst) : Inv inst := by
  induction h with
  | created inst hc => exact Inv.created hc
  | add inst inst' ctl h _ hok he ih => exact ih.add hok.1 hok.2 he
  | truncate inst r _ ih => exact ih.truncate r

end HistinfoAux
end Gtm

/-!
## The history of a replication instance

Whatever records are added to an instance file and however it is truncated, its header and its chains describe the records that are
in it, and a search along a chain finds what a search through all records would find. Records of stream `0` are chained by
`start_seqno`, but the walk back that `repl_inst_histinfo_add` does for a `NORESYNC` record goes by `strm_seqno` in every stream; so
such a record must not go back in stream `0`.
-/

namespace Gtm

open HistinfoAux

/-- The history of every run. -/
theorem histinfo_run (inst : ReplInst) (h : HistinfoRun (fun inst h => Ordered inst h ∧ NoresyncOrdered inst h) inst) :
    inst.HeaderNewest ∧ inst.RecordsHeader ∧ inst.ChainsDecrease ∧ inst.FindsNewest ∧ inst.TruncatesTo := by
  have hi := inv_of_run h
  exact ⟨hi.header, hi.records.last, hi.records.chain, hi.findsNewest, hi.truncatesTo⟩

/-- An instance file with no records. -/
def emptyInst : ReplInst :=
  { isSupplementary := true, numHistinfo := 0, numAllocHistinfo := 0, lastHistinfoNum := fun _ => none
    strmGroupInfo := fun _ => 0, strmSeqno := fun _ => 0, jnlSeqno := 1
    hist := fun _ => { rootPrimaryInstname := "", startSeqno := 0, strmSeqno := 0, rootPrimaryCycle := 0, creatorPid := 0
                       createdTime := 0, strmIndex := (Fin.last 15).rev, historyType := .normal } }

/-- A record of an instance that starts for the `cycle`th time. -/
def startRecord (cycle : Nat) (strm : Stream) (type : HistinfoType) (startSeqno strmSeqno : Nat) : ReplHistinfo :=
  { rootPrimaryInstname := "INSTA", startSeqno := startSeqno, strmSeqno := strmSeqno, rootPrimaryCycle := cycle, creatorPid := 17
    createdTime := 0, strmIndex := strm, historyType := type }

/-- A journal pool of an instance that only receives. -/
def receiving : JnlpoolCtl := { updDisabled := true, jnlSeqno := 1 }

/-- A first record of stream `0`, a record of stream `1`, and a `NORESYNC` record of stream `1` that goes back: the search skips the
record gone back behind. -/
theorem histinfo_run_noresync :
    ∃ inst : ReplInst, inst.numHistinfo = 4 ∧ inst.lastHistinfoNum 1 = some 3 ∧
      inst.HeaderNewest ∧ inst.RecordsHeader ∧ inst.ChainsDecrease ∧ inst.FindsNewest ∧ inst.TruncatesTo := by
  have h0 : HistinfoRun (fun inst h => Ordered inst h ∧ NoresyncOrdered inst h) emptyInst :=
    .created _ ⟨rfl, fun _ => rfl⟩
  have h1 := HistinfoRun.add _ _ receiving (startRecord 1 0 .normal 1 1) h0
    ⟨⟨by decide, by decide, by decide, fun _ n hn => by cases hn⟩, fun _ h => by cases h⟩ rfl
  have h2 := HistinfoRun.add _ _ receiving (startRecord 1 1 .normal 4 2) h1
    ⟨⟨by decide, by decide, fun _ _ n hn => (by cases hn), fun h => by cases h⟩, fun h => by cases h⟩ rfl
  have h3 := HistinfoRun.add _ _ receiving (startRecord 2 1 .normal 7 6) h2
    ⟨⟨by decide, by decide, fun _ _ n hn => by cases hn; decide, fun h => by cases h⟩, fun h => by cases h⟩ rfl
  have h4 := HistinfoRun.add _ _ receiving (startRecord 3 1 .noresync 9 4) h3
    ⟨⟨by decide, by decide, fun _ h => (by cases h), fun h => by cases h⟩, fun h => by cases h⟩ rfl
  exact ⟨_, rfl, rfl, histinfo_run _ h4⟩

/-- Three records of stream `0`, the last of them a `NORESYNC` record that goes back: the search for `7` returns the first record,
though the second starts at `5`. -/
theorem histinfo_noresync_zero :
    ¬ ∀ inst : ReplInst, HistinfoRun Ordered inst →
      inst.HeaderNewest ∧ inst.RecordsHeader ∧ inst.ChainsDecrease ∧ inst.FindsNewest ∧ inst.TruncatesTo := by
  intro hall
  have h0 : HistinfoRun Ordered emptyInst := .created _ ⟨rfl, fun _ => rfl⟩
  have h1 := HistinfoRun.add _ _ receiving (startRecord 1 0 .normal 1 1) h0
    ⟨by decide, by decide, by decide, fun _ n hn => by cases hn⟩ rfl
  have h2 := HistinfoRun.add _ _ receiving (startRecord 2 0 .normal 5 5) h1
    ⟨by decide, by decide, by decide, fun _ n hn he => by cases hn; exact absurd he (by decide)⟩ rfl
  have h3 := HistinfoRun.add _ _ receiving (startRecord 3 0 .noresync 9 3) h2
    ⟨by decide, by decide, by decide, fun _ n hn he => by cases hn; exact absurd he (by decide)⟩ rfl
  obtain ⟨-, -, -, hfind, -⟩ := hall _ h3
  obtain ⟨n, hn, hrec⟩ := ((hfind 7 (some 0)).1 _).mp rfl
  have helig : (1 : Nat) ≤ n := hn.2 ⟨by decide, by decide, fun s hs => by
    cases hs
    refine ⟨rfl, fun k hk1 hk2 _ => ?_⟩
    have hk : k = 2 := by
      have : k < 3 := hk2
      omega
    subst hk
    decide⟩
  have hn3 : n < 3 := hn.1.1
  have hnum := congrArg ReplHistinfo.histinfoNum hrec
  match n, helig, hn3, hnum with
  | 1, _, _, hnum => cases hnum
  | 2, _, _, hnum => cases hnum

end Gtm
