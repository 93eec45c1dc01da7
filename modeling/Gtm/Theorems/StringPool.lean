import Gtm.Lemmas.StpSort
import Gtm.Lemmas.StpCompact

/-!
# What the garbage collection of the string pool keeps

Where the pool does not have to grow or can, every live string keeps its bytes and the space asked for is there. Where it cannot,
`stringpool.free` stays at the base of the pool that holds the strings.
-/

namespace Gtm

/-- A pool with its live strings, which start on word boundaries when `align` is set. -/
structure Stp.WF (align : Bool) (s : Stp) (live : List Nat) : Prop where
  live : LiveIn align s.mstrs s.stringpool.base s.stringpool.free live
  base_le : s.stringpool.base ≤ s.stringpool.free
  free_le : s.stringpool.free ≤ s.stringpool.top
  base_aligned : s.stringpool.base % nativeWsize = 0
  incrFactor_pos : 1 ≤ s.incrFactor

/-- `malloc` returns aligned memory apart from the pool, which goes on above its top. -/
structure StpEnv.Fresh (env : StpEnv) (pool : Spdesc) : Prop where
  page_pos : 0 < env.osPageSize
  malloc : ∀ i len addr, env.malloc i len = some addr →
    addr % nativeWsize = 0 ∧ (pool.top < addr ∨ addr + len ≤ pool.base)

/-- `s'` is what a collection of `s` should leave: every live string with its length and bytes and inside the used part of the pool,
overlapping strings sharing their bytes as before, and the space asked for above it. -/
structure Stp.Collected (s : Stp) (live : List Nat) (spaceAsked : Nat) (s' : Stp) : Prop where
  len_eq : ∀ i ∈ live, (s'.mstrs i).len = (s.mstrs i).len
  bytes : ∀ i ∈ live, ∀ k < (s.mstrs i).len, s'.mem ((s'.mstrs i).addr + k) = s.mem ((s.mstrs i).addr + k)
  lo : ∀ i ∈ live, s'.stringpool.base ≤ (s'.mstrs i).addr
  hi : ∀ i ∈ live, (s'.mstrs i).addr + (s'.mstrs i).len ≤ s'.stringpool.free
  share : ∀ i ∈ live, ∀ j ∈ live, (s.mstrs i).Overlap (s.mstrs j) →
    (s'.mstrs i).addr + (s.mstrs j).addr = (s'.mstrs j).addr + (s.mstrs i).addr
  room : s'.stringpool.free + spaceAsked ≤ s'.stringpool.top

/-- What is asked of a collection that may run out of memory, for the state it leaves and the error it raises: an error with
`stringpool.free` and the live strings as before, or a complete collection. -/
def Stp.Safe (s : Stp) (live : List Nat) (spaceAsked : Nat) (r : Stp × Option StpError) : Prop :=
  (r.2 ≠ none ∧ r.1.stringpool.free = s.stringpool.free ∧
    ∀ i ∈ live, r.1.mstrs i = s.mstrs i ∧ ∀ k < (s.mstrs i).len, r.1.mem ((s.mstrs i).addr + k) = s.mem ((s.mstrs i).addr + k)) ∨
  (r.2 = none ∧ s.Collected live spaceAsked r.1)

namespace StpAux

/-! ### The strings in order -/

theorem sortedLive_perm (s : Stp) (live : List Nat) : (s.sortedLive live).Perm live := by
  have h := (stpgSort_spec (fun i => (s.mstrs i).addr) live.length fun i => live.getD i 0).1
  have hlist : ((List.range live.length).map fun i => live.getD i 0) = live := by
    refine List.ext_getElem (by simp) ?_
    intro i h1 h2
    simp [h2]
  rw [hlist] at h
  exact h

theorem sortedLive_sorted (s : Stp) (live : List Nat) : (s.sortedLive live).Pairwise fun i j => (s.mstrs i).addr ≤ (s.mstrs j).addr :=
  (stpgSort_spec (fun i => (s.mstrs i).addr) live.length fun i => live.getD i 0).2

variable {live : List Nat} {s : Stp} {spaceAsked f i addr : Nat} {pool : Spdesc} {spaceNeeded : Int} {env : StpEnv}

theorem liveIn_perm {align : Bool} {m : Nat → Mstr} {base free : Nat} {live' : List Nat} (h : LiveIn align m base free live)
    (hp : live'.Perm live) : LiveIn align m base free live' where
  nodup := hp.nodup_iff.2 h.nodup
  pos i hi := h.pos i (hp.mem_iff.1 hi)
  lo i hi := h.lo i (hp.mem_iff.1 hi)
  hi i hi := h.hi i (hp.mem_iff.1 hi)
  aligned i hi := h.aligned i (hp.mem_iff.1 hi)

/-- Compaction of the live strings of a pool. -/
theorem compacted {align : Bool} (h : s.WF align live) (base : Nat) (hal : base % nativeWsize = 0)
    (hwhere : base = s.stringpool.base ∨ s.stringpool.free ≤ base ∨
      base + totspace align ((s.sortedLive live).map s.mstrs) ≤ s.stringpool.base) :
    Compacted s.mem s.mstrs (s.sortedLive live) base (totspace align ((s.sortedLive live).map s.mstrs))
      (copy2stpool align (s.sortedLive live) ⟨s.mem, s.mstrs, base⟩) :=
  copy2stpool_spec (liveIn_perm h.live (sortedLive_perm s live)) (sortedLive_sorted s live) s.mem base (fun _ => hal) hwhere

/-- A compaction into a pool with room for the strings and for what is asked is a collection. -/
theorem collected_of_compacted {s' : Stp} (room : Nat) {c : Compaction}
    (h : Compacted s.mem s.mstrs (s.sortedLive live) s'.stringpool.base room c) (hmem : s'.mem = c.mem) (hm : s'.mstrs = c.mstrs)
    (hfree : s'.stringpool.free = c.free) (htop : s'.stringpool.base + room + spaceAsked ≤ s'.stringpool.top) :
    s.Collected live spaceAsked s' := by
  have hmem' : ∀ i ∈ live, i ∈ s.sortedLive live := fun i hi => (sortedLive_perm s live).mem_iff.2 hi
  constructor
  · intro i hi
    rw [hm]
    exact h.len_eq i (hmem' i hi)
  · intro i hi k hk
    rw [hm, hmem]
    exact h.bytes i (hmem' i hi) k hk
  · intro i hi
    rw [hm]
    exact h.lo i (hmem' i hi)
  · intro i hi
    rw [hm, hfree]
    exact h.hi i (hmem' i hi)
  · intro i hi j hj hov
    rw [hm]
    exact h.share i (hmem' i hi) j (hmem' j hj) hov
  · have := h.free_le
    omega

/-! ### The end of the call -/

@[simp] theorem finish_mem (s : Stp) (n : Nat) : (s.finish n).1.mem = s.mem := by
  simp only [Stp.finish]
  split <;> rfl

@[simp] theorem finish_mstrs (s : Stp) (n : Nat) : (s.finish n).1.mstrs = s.mstrs := by
  simp only [Stp.finish]
  split <;> rfl

@[simp] theorem finish_base (s : Stp) (n : Nat) : (s.finish n).1.stringpool.base = s.stringpool.base := by
  simp only [Stp.finish]
  split <;> rfl

@[simp] theorem finish_free (s : Stp) (n : Nat) : (s.finish n).1.stringpool.free = s.stringpool.free := by
  simp only [Stp.finish]
  split <;> rfl

@[simp] theorem finish_top (s : Stp) (n : Nat) : (s.finish n).1.stringpool.top = s.stringpool.top := by
  simp only [Stp.finish]
  split <;> rfl

/-- `ERR_STPCRIT` is due: the limit of the pool is watched, was not passed before and is now. -/
def Crit (pool : Spdesc) : Prop := 0 < pool.strpllim ∧ pool.strpllimwarned = false ∧ pool.strpllim < pool.top - pool.base

instance (pool : Spdesc) : Decidable (Crit pool) := inferInstanceAs (Decidable (_ ∧ _))

theorem finish_error_eq_none (s : Stp) (n : Nat) : (s.finish n).2 = none ↔ ¬ Crit s.stringpool := by
  unfold Stp.finish Crit
  simp only
  split
  · rename_i h
    simp [h]
  · rename_i h
    simp only [true_iff]
    exact h

/-! ### The expansion loop -/

/-- The increment of attempt `i`, before it is raised to what is needed: the quarters of the pool size from `incr_factor` down to
one, then the quarter halved again and again. -/
def rawIncr (size incrFactor i : Nat) : Nat :=
  if i < incrFactor then size * (incrFactor - i) / stpNumIncrs else size / stpNumIncrs / 2 ^ (i + 1 - incrFactor)

/-- The value of `incr_factor` at attempt `i`. -/
def factorAt (incrFactor i : Nat) : Nat := if i < incrFactor then incrFactor - i else 1

theorem rawIncr_succ_of_lt (size : Nat) (h : 1 < factorAt f i) :
    rawIncr size f (i + 1) = size * (factorAt f i - 1) / stpNumIncrs ∧ factorAt f (i + 1) = factorAt f i - 1 := by
  unfold factorAt at *
  split at h
  · rename_i hi
    rw [if_pos hi, if_pos (by omega), rawIncr, if_pos (by omega)]
    exact ⟨by rw [Nat.sub_add_eq], by omega⟩
  · omega

theorem rawIncr_succ_of_one (size : Nat) (h : ¬ 1 < factorAt f i) :
    rawIncr size f (i + 1) = rawIncr size f i / 2 ∧ factorAt f (i + 1) = factorAt f i := by
  unfold factorAt at *
  split at h
  · rename_i hi
    rw [if_neg (by omega), rawIncr, if_neg (by omega), rawIncr, if_pos hi]
    rw [show f - i = 1 by omega, show i + 1 + 1 - f = 1 by omega]
    simp
  · rename_i hi
    rw [if_neg hi, if_neg (by omega), rawIncr, if_neg (by omega), rawIncr, if_neg hi]
    rw [show i + 1 + 1 - f = i + 1 - f + 1 by omega, Nat.pow_succ, ← Nat.div_div_eq_div_mul]
    exact ⟨rfl, rfl⟩

/-- The increment of attempt `i`. -/
def incrAt (pool : Spdesc) (spaceNeeded : Int) (incrFactor i : Nat) : Nat :=
  atLeast (rawIncr (pool.top - pool.base) incrFactor i) spaceNeeded

/-- Attempt `i` gets as far as `malloc`: there is something to ask for, and it does not pass a limit already warned about. -/
def Asks (pool : Spdesc) (spaceNeeded : Int) (incrFactor i : Nat) : Prop :=
  incrAt pool spaceNeeded incrFactor i ≠ 0 ∧
    ¬ (pool.strpllimwarned = true ∧ pool.strpllim < incrAt pool spaceNeeded incrFactor i + (pool.top - pool.base))

instance (pool : Spdesc) (spaceNeeded : Int) (f i : Nat) : Decidable (Asks pool spaceNeeded f i) :=
  inferInstanceAs (Decidable (_ ∧ _))

theorem asks_of_not_giveUp {nm : Bool} (hm : nm = false → 0 < spaceNeeded) (hz : ¬ (nm = true ∧ incrAt pool spaceNeeded f i = 0))
    (hlim : ¬ (pool.strpllimwarned = true ∧ pool.strpllim < incrAt pool spaceNeeded f i + (pool.top - pool.base))) :
    Asks pool spaceNeeded f i := by
  refine ⟨?_, hlim⟩
  cases nm with
  | true => exact fun h0 => hz ⟨rfl, h0⟩
  | false =>
    have := hm rfl
    unfold incrAt atLeast
    split <;> omega

theorem le_atLeast (r : Nat) (spaceNeeded : Int) : spaceNeeded ≤ atLeast r spaceNeeded := by
  unfold atLeast
  split <;> omega

theorem atLeast_eq_of_lt {r : Nat} (h : spaceNeeded < atLeast r spaceNeeded) : atLeast r spaceNeeded = r := by
  unfold atLeast at *
  split at h
  · omega
  · rename_i hn
    exact if_neg hn

/-- The answer to attempt `i`. -/
def answer (env : StpEnv) (pool : Spdesc) (spaceNeeded : Int) (incrFactor i : Nat) : Option Nat :=
  env.malloc i (stpInitLen env (incrAt pool spaceNeeded incrFactor i + (pool.top - pool.base)))

/-- From attempt `k` on, the first one that memory is granted to is attempt `i`. -/
structure GrantedFrom (env : StpEnv) (pool : Spdesc) (spaceNeeded : Int) (incrFactor k i addr : Nat) : Prop where
  le : k ≤ i
  refused : ∀ j, k ≤ j → j < i → Asks pool spaceNeeded incrFactor j ∧ answer env pool spaceNeeded incrFactor j = none ∧
    spaceNeeded < incrAt pool spaceNeeded incrFactor j
  asks : Asks pool spaceNeeded incrFactor i
  granted : answer env pool spaceNeeded incrFactor i = some addr

/-- An attempt that is refused leads to the next one. -/
theorem GrantedFrom.succ_iff {k : Nat}
    (hk : Asks pool spaceNeeded f k ∧ answer env pool spaceNeeded f k = none ∧ spaceNeeded < incrAt pool spaceNeeded f k) :
    GrantedFrom env pool spaceNeeded f k i addr ↔ GrantedFrom env pool spaceNeeded f (k + 1) i addr := by
  constructor
  · rintro ⟨h1, h2, h3, h4⟩
    have hne : k ≠ i := by
      rintro rfl
      rw [hk.2.1] at h4
      simp at h4
    exact ⟨by omega, fun j hj hji => h2 j (by omega) hji, h3, h4⟩
  · rintro ⟨h1, h2, h3, h4⟩
    refine ⟨by omega, ?_, h3, h4⟩
    intro j hj hji
    by_cases hjk : j = k
    · rw [hjk]
      exact hk
    · exact h2 j (by omega) hji

/-- What is known about the attempt in hand when a later one or itself is granted memory. -/
theorem GrantedFrom.first {k : Nat} (h : GrantedFrom env pool spaceNeeded f k i addr) : Asks pool spaceNeeded f k ∧
      (i = k ∧ answer env pool spaceNeeded f k = some addr ∨
        answer env pool spaceNeeded f k = none ∧ spaceNeeded < incrAt pool spaceNeeded f k) := by
  by_cases hk : i = k
  · subst hk
    exact ⟨h.asks, .inl ⟨rfl, h.granted⟩⟩
  · have := h.le
    obtain ⟨h1, h2, h3⟩ := h.refused k (Nat.le_refl _) (by omega)
    exact ⟨h1, .inr ⟨h2, h3⟩⟩

/-- The loop ends with memory exactly when one of its attempts is granted any. -/
theorem expandLoop_expanded_iff (env : StpEnv) (pool : Spdesc) (spaceNeeded : Int) (nm : Bool)
    (hm : nm = false → 0 < spaceNeeded) (f k fac : Nat) (stop : Bool) (raw size addr : Nat) (hfac : fac = factorAt f k)
    (hraw : raw = rawIncr (pool.top - pool.base) f k) : (expandLoop env pool spaceNeeded nm hm k fac stop raw).1 = .expanded size addr ↔
      ∃ i, GrantedFrom env pool spaceNeeded f k i addr ∧ size = incrAt pool spaceNeeded f i + (pool.top - pool.base) := by
  fun_induction expandLoop env pool spaceNeeded nm hm k fac stop raw with
  | case1 k fac stop raw incr hz =>
    simp only [reduceCtorEq, false_iff]
    rintro ⟨i, hg, -⟩
    subst hraw
    exact hg.first.1.1 hz.2
  | case2 k fac stop raw old incr hz hlim =>
    simp only [reduceCtorEq, false_iff]
    rintro ⟨i, hg, -⟩
    subst hraw
    exact hg.first.1.2 hlim
  | case3 k fac stop raw old incr hz hlim a ha =>
    subst hraw
    have hask : Asks pool spaceNeeded f k := asks_of_not_giveUp hm hz hlim
    have hans : answer env pool spaceNeeded f k = some a := ha
    simp only [Expansion.expanded.injEq]
    constructor
    · rintro ⟨rfl, rfl⟩
      exact ⟨k, ⟨Nat.le_refl _, fun j h1 h2 => by omega, hask, hans⟩, rfl⟩
    · rintro ⟨i, hg, rfl⟩
      rcases hg.first.2 with ⟨rfl, h⟩ | ⟨h, -⟩
      · rw [hans] at h
        exact ⟨rfl, Option.some.inj h⟩
      · rw [hans] at h
        simp at h
  | case4 k fac stop raw old incr hz hlim ha hlast =>
    simp only [reduceCtorEq, false_iff]
    rintro ⟨i, hg, -⟩
    subst hraw
    have hans : answer env pool spaceNeeded f k = none := ha
    rcases hg.first.2 with ⟨-, h⟩ | ⟨-, h⟩
    · rw [hans] at h
      simp at h
    · exact hlast h
  | case5 k fac stop raw old incr hz hlim ha hmore hfac1 ih =>
    subst hraw hfac
    obtain ⟨hr, hfa⟩ := rawIncr_succ_of_lt (pool.top - pool.base) hfac1
    have hask : Asks pool spaceNeeded f k := asks_of_not_giveUp hm hz hlim
    rw [ih hfa.symm hr.symm]
    exact exists_congr fun i => and_congr_left fun _ => (GrantedFrom.succ_iff ⟨hask, ha, not_not.1 hmore⟩).symm
  | case6 k fac stop raw old incr hz hlim ha hmore hfac1 ih =>
    subst hraw hfac
    obtain ⟨hr, hfa⟩ := rawIncr_succ_of_one (pool.top - pool.base) hfac1
    have hask : Asks pool spaceNeeded f k := asks_of_not_giveUp hm hz hlim
    have hhalf : (if spaceNeeded < incr then incr / 2 else incr) = rawIncr (pool.top - pool.base) f (k + 1) := by
      rw [if_pos (not_not.1 hmore), hr]
      exact congrArg (· / 2) (atLeast_eq_of_lt (not_not.1 hmore))
    refine (ih hfa.symm hhalf).trans ?_
    exact exists_congr fun i => and_congr_left fun _ => (GrantedFrom.succ_iff ⟨hask, ha, not_not.1 hmore⟩).symm

/-- Only an expansion that is not mandatory is given up without an error. -/
theorem nonMandatory_of_unexpanded (env : StpEnv) (pool : Spdesc) (spaceNeeded : Int) (nm : Bool)
    (hm : nm = false → 0 < spaceNeeded) (k fac : Nat) (stop : Bool) (raw incr : Nat)
    (h : (expandLoop env pool spaceNeeded nm hm k fac stop raw).1 = .unexpanded incr) : nm = true := by
  fun_induction expandLoop env pool spaceNeeded nm hm k fac stop raw with
  | case1 k fac stop raw incr hz => exact hz.1
  | case2 => simp at h
  | case3 => simp at h
  | case4 => simp at h
  | case5 k fac stop raw old incr hz hlim ha hmore hfac1 ih => exact ih h
  | case6 k fac stop raw old incr hz hlim ha hmore hfac1 ih => exact ih h

/-- The expansion of a call, in terms of its attempts. -/
theorem expansion_expanded_iff (s : Stp) (env : StpEnv) (live : List Nat) (spaceAsked size addr : Nat) (hf : 1 ≤ s.incrFactor) :
    (s.expansion env live spaceAsked).1 = .expanded size addr ↔
      ∃ i, GrantedFrom env s.stringpool (s.spaceNeeded env live spaceAsked) s.incrFactor 0 i addr ∧
        size = incrAt s.stringpool (s.spaceNeeded env live spaceAsked) s.incrFactor i + (s.stringpool.top - s.stringpool.base) := by
  refine expandLoop_expanded_iff env s.stringpool _ _ _ s.incrFactor 0 s.incrFactor _ _ size addr ?_ ?_
  · simp [factorAt]
    omega
  · rw [rawIncr, if_pos (by omega), Nat.sub_zero]

/-- A new pool has room for what was asked of `stp_init`. -/
theorem lt_stpInit_top (env : StpEnv) (pool : Spdesc) (size addr : Nat) (hp : 0 < env.osPageSize) :
    addr + size < (stpInit env pool size addr).top := by
  simp only [stpInit, stpInitLen]
  generalize hx : addr + (size + 8 + 2 * env.osPageSize) = x
  have h1 := Nat.div_add_mod x env.osPageSize
  have h2 := Nat.mod_lt x hp
  rw [Nat.mul_comm] at h1
  generalize x / env.osPageSize * env.osPageSize = q at *
  omega

/-- The call that needs no expansion. -/
theorem collected_of_not_expands (h : s.WF env.mstrNativeAlign live) (hx : ¬ s.Expands env live spaceAsked) :
    s.Collected live spaceAsked (s.stpGcol env live spaceAsked).1 := by
  have hneed : ¬ 0 < s.spaceNeeded env live spaceAsked := fun h0 => hx (.inl h0)
  have hc := compacted h s.stringpool.base h.base_aligned (.inl rfl)
  rw [← moveWithinStpool_eq] at hc
  simp only [Stp.stpGcol, if_neg hx]
  refine collected_of_compacted (totspace env.mstrNativeAlign ((s.sortedLive live).map s.mstrs)) ?_ (finish_mem _ _)
    (finish_mstrs _ _) (finish_free _ _) ?_
  · rw [finish_base]
    exact hc
  · rw [finish_base, finish_top]
    simp only [Stp.setCompaction]
    unfold Stp.spaceNeeded Stp.spaceAfterCompact roundUp2 nativeWsize at hneed
    omega

/-- The call whose expansion is granted memory. -/
theorem collected_of_expanded {size : Nat}
    (h : s.WF env.mstrNativeAlign live) (hfresh : env.Fresh s.stringpool) (hx : s.Expands env live spaceAsked)
    (he : (s.expansion env live spaceAsked).1 = .expanded size addr) : s.Collected live spaceAsked (s.stpGcol env live spaceAsked).1 ∧
      ((s.stpGcol env live spaceAsked).2 = none ↔ ¬ Crit (stpInit env s.stringpool size addr)) ∧
      addr ≤ (s.stpGcol env live spaceAsked).1.stringpool.free ∧ (s.stpGcol env live spaceAsked).1.stringpool.free ≤ addr + size := by
  obtain ⟨i, hg, hsize⟩ := (expansion_expanded_iff s env live spaceAsked size addr h.incrFactor_pos).1 he
  have hmalloc : env.malloc i (stpInitLen env size) = some addr := hsize ▸ hg.granted
  obtain ⟨hal, hapart⟩ := hfresh.malloc i _ addr hmalloc
  have hincr := le_atLeast (rawIncr (s.stringpool.top - s.stringpool.base) s.incrFactor i) (s.spaceNeeded env live spaceAsked)
  have htop := lt_stpInit_top env s.stringpool size addr hfresh.page_pos
  have hroom : totspace env.mstrNativeAlign ((s.sortedLive live).map s.mstrs) + spaceAsked ≤ size := by
    unfold incrAt at hsize
    unfold Stp.spaceNeeded Stp.spaceAfterCompact roundUp2 nativeWsize at hincr hsize
    omega
  have hc := compacted h addr hal (by
    have := h.free_le
    unfold stpInitLen at hapart
    omega)
  generalize hex : s.expansion env live spaceAsked = ex at he
  obtain ⟨exp, incrFactor, stop⟩ := ex
  subst he
  simp only [Stp.stpGcol, if_pos hx, hex]
  refine ⟨?_, ?_, ?_, ?_⟩
  · refine collected_of_compacted (totspace env.mstrNativeAlign ((s.sortedLive live).map s.mstrs)) ?_ (finish_mem _ _)
      (finish_mstrs _ _) (finish_free _ _) ?_
    · rw [finish_base]
      exact hc
    · rw [finish_base, finish_top]
      simp only [Stp.setCompaction, stpInit] at htop ⊢
      omega
  · rw [finish_error_eq_none]
    rfl
  · rw [finish_free]
    exact hc.base_le
  · rw [finish_free]
    exact Nat.le_trans hc.free_le (by omega)

/-- In the call whose expansion is granted memory, an error can only be the notice that the pool has passed its limit, and then the
strings have moved. -/
theorem safe_iff_of_expanded {size : Nat}
    (h : s.WF env.mstrNativeAlign live) (hfresh : env.Fresh s.stringpool) (hx : s.Expands env live spaceAsked)
    (he : (s.expansion env live spaceAsked).1 = .expanded size addr) :
    s.Safe live spaceAsked (s.stpGcol env live spaceAsked) ↔ ¬ Crit (stpInit env s.stringpool size addr) := by
  obtain ⟨hcol, hnone, hlo, hhi⟩ := collected_of_expanded h hfresh hx he
  rw [← hnone]
  constructor
  · rintro (⟨-, hfree, -⟩ | ⟨hr, -⟩)
    · obtain ⟨i, hg, hsize⟩ := (expansion_expanded_iff s env live spaceAsked size addr h.incrFactor_pos).1 he
      have hmalloc : env.malloc i (stpInitLen env size) = some addr := hsize ▸ hg.granted
      have hapart := (hfresh.malloc i _ addr hmalloc).2
      have := h.base_le
      have := h.free_le
      unfold stpInitLen at hapart
      omega
    · exact hr
  · exact fun hr => .inr ⟨hr, hcol⟩

section
variable (h : s.WF env.mstrNativeAlign live) (hx : s.Expands env live spaceAsked)
include h hx

/-- A pool in which too little is reclaimed has live strings. -/
theorem base_lt_free_of_nonMandatory (hnm : s.nonMandatory env live spaceAsked = true) : ∃ i ∈ live, s.stringpool.base < (s.mstrs i).addr + (s.mstrs i).len := by
  have hneed : ¬ 0 < s.spaceNeeded env live spaceAsked := by simpa [Stp.nonMandatory] using hnm
  have hpass : stpMaxlowreclaimPasses ≤ s.reclaimPasses env live := (hx.resolve_left hneed).2
  have hlow : s.spaceAfterCompact env live < stpLowreclaimLevel (s.stringpool.top - s.stringpool.base) := by
    by_contra hn
    rw [Stp.reclaimPasses, if_neg hn] at hpass
    simp [stpMaxlowreclaimPasses] at hpass
  cases live with
  | nil =>
    have hzero : s.spaceAfterCompact env [] = (s.stringpool.top : Int) - s.stringpool.base := by
      simp [Stp.spaceAfterCompact, Stp.sortedLive, totspace]
    have := h.base_le
    have := h.free_le
    unfold stpLowreclaimLevel at hlow
    omega
  | cons i live =>
    have h1 := h.live.lo i (by simp)
    have h2 := h.live.pos i (by simp)
    exact ⟨i, by simp, by omega⟩

/-- Without memory, `stringpool.free` is left at the base of the pool. -/
theorem safe_iff_of_not_expanded (he : ∀ size addr, (s.expansion env live spaceAsked).1 ≠ .expanded size addr) :
    s.Safe live spaceAsked (s.stpGcol env live spaceAsked) ↔ s.stringpool.free = s.stringpool.base := by
  generalize hex : s.expansion env live spaceAsked = ex at he
  obtain ⟨exp, incrFactor, stop⟩ := ex
  cases exp with
  | expanded size addr => exact absurd rfl (he size addr)
  | raised e =>
    simp only [Stp.stpGcol, if_pos hx, hex]
    constructor
    · rintro (⟨-, hfree, -⟩ | ⟨hr, -⟩)
      · exact hfree.symm
      · simp at hr
    · intro hfree
      exact .inl ⟨by simp, hfree.symm, fun i _ => ⟨rfl, fun k _ => rfl⟩⟩
  | unexpanded incr =>
    have hnm : s.nonMandatory env live spaceAsked = true :=
      nonMandatory_of_unexpanded env s.stringpool _ _ (s.spaceNeeded_pos_of_mandatory env live spaceAsked) 0 s.incrFactor
        s.stopNonMandatoryExpansion _ incr (congrArg Prod.fst hex)
    have hneed : ¬ 0 < s.spaceNeeded env live spaceAsked := by simpa [Stp.nonMandatory] using hnm
    have hspace : ¬ s.spaceAfterCompact env live < s.spaceNeeded env live spaceAsked := by
      unfold Stp.spaceNeeded at *
      omega
    obtain ⟨i, hi, hlt⟩ := base_lt_free_of_nonMandatory h hx hnm
    have hle := h.live.hi i hi
    simp only [Stp.stpGcol, if_pos hx, hex, if_neg hspace]
    constructor
    · rintro (⟨-, hfree, -⟩ | ⟨-, hcol⟩)
      · rw [finish_free] at hfree
        exact hfree.symm
      · have hhi := hcol.hi i hi
        rw [finish_free, finish_mstrs] at hhi
        have hhi : (s.mstrs i).addr + (s.mstrs i).len ≤ s.stringpool.base := hhi
        omega
    · intro hfree
      omega

end

end StpAux

open StpAux

/-- For every pool with distinct live strings, starting on word boundaries when `mstr_native_align` is set, and any space asked for:
where no expansion is needed or the expansion is granted memory, every live string keeps its length and bytes, lies inside the used
part of the pool and shares its bytes with the strings it overlapped, and the space is there. -/
theorem stpGcol_collects (env : StpEnv) (s : Stp) (live : List Nat) (spaceAsked : Nat) (h : s.WF env.mstrNativeAlign live)
    (hfresh : env.Fresh s.stringpool)
    (hx : s.Expands env live spaceAsked → ∃ size addr, (s.expansion env live spaceAsked).1 = .expanded size addr) :
    s.Collected live spaceAsked (s.stpGcol env live spaceAsked).1 := by
  by_cases hexp : s.Expands env live spaceAsked
  · obtain ⟨size, addr, he⟩ := hx hexp
    exact (collected_of_expanded h hfresh hexp he).1
  · exact collected_of_not_expands h hexp

/-- Three strings in a pool of 102400 bytes: the second ends inside the first word, the third starts the next one. -/
def threeStrings : Stp where
  stringpool := ⟨800, 809, 103200, 103200, 0, false⟩
  mem a := UInt8.ofNat a
  mstrs i := if i = 0 then ⟨800, 1⟩ else if i = 1 then ⟨802, 1⟩ else ⟨808, 1⟩
  lowReclaimPasses := 0
  incrFactor := 1
  stopNonMandatoryExpansion := false

/-- No memory to be had. -/
def noMemory (align : Bool) : StpEnv := ⟨align, 4096, fun _ _ => none⟩

theorem noMemory_fresh (align : Bool) (pool : Spdesc) : (noMemory align).Fresh pool :=
  ⟨Nat.zero_lt_succ 4095, fun _ _ _ h => by simp [noMemory] at h⟩

theorem threeStrings_wf : threeStrings.WF false [0, 1, 2] where
  live := ⟨by decide, by decide, by decide, by decide, fun _ _ h => by simp at h⟩
  base_le := by decide
  free_le := by decide
  base_aligned := by decide
  incrFactor_pos := by decide

/-- With `mstr_native_align` set and strings that do not start on word boundaries, the second string is moved up onto the third
before that one is moved. -/
theorem stpGcol_native_align_overwrites :
    ¬ ∀ (env : StpEnv) (s : Stp) (live : List Nat) (spaceAsked : Nat), s.WF false live → env.Fresh s.stringpool →
      (s.Expands env live spaceAsked → ∃ size addr, (s.expansion env live spaceAsked).1 = .expanded size addr) →
      s.Collected live spaceAsked (s.stpGcol env live spaceAsked).1 := by
  intro h
  have hx : ¬ threeStrings.Expands (noMemory true) [0, 1, 2] 0 := by decide
  have hbyte := (h (noMemory true) threeStrings [0, 1, 2] 0 threeStrings_wf (noMemory_fresh true _) fun he => absurd he hx).bytes 2
    (by decide) 0 (by decide)
  exact absurd hbyte (by decide)

theorem stpGcol_collects_three_strings :
    threeStrings.Collected [0, 1, 2] 16 (threeStrings.stpGcol (noMemory false) [0, 1, 2] 16).1 :=
  stpGcol_collects (noMemory false) threeStrings [0, 1, 2] 16 threeStrings_wf (noMemory_fresh false _) fun he =>
    absurd he (by decide)

/-- A call that attempts an expansion is safe exactly when one of its attempts is granted memory and the new pool does not pass a
limit for the first time, or when none is and the pool was empty. -/
theorem stpGcol_safe_iff (env : StpEnv) (s : Stp) (live : List Nat) (spaceAsked : Nat) (h : s.WF env.mstrNativeAlign live)
    (hfresh : env.Fresh s.stringpool) (hx : s.Expands env live spaceAsked) :
    s.Safe live spaceAsked (s.stpGcol env live spaceAsked) ↔
      (∃ i addr, GrantedFrom env s.stringpool (s.spaceNeeded env live spaceAsked) s.incrFactor 0 i addr ∧
        ¬ Crit (stpInit env s.stringpool (incrAt s.stringpool (s.spaceNeeded env live spaceAsked) s.incrFactor i +
          (s.stringpool.top - s.stringpool.base)) addr)) ∨
      (s.stringpool.free = s.stringpool.base ∧
        ¬ ∃ i addr, GrantedFrom env s.stringpool (s.spaceNeeded env live spaceAsked) s.incrFactor 0 i addr) := by
  have hiff := fun size addr => expansion_expanded_iff s env live spaceAsked size addr h.incrFactor_pos
  by_cases hg : ∃ i addr, GrantedFrom env s.stringpool (s.spaceNeeded env live spaceAsked) s.incrFactor 0 i addr
  · obtain ⟨i, addr, hg⟩ := hg
    have he := (hiff _ addr).2 ⟨i, hg, rfl⟩
    rw [safe_iff_of_expanded h hfresh hx he]
    constructor
    · exact fun hc => .inl ⟨i, addr, hg, hc⟩
    · rintro (⟨j, addr', hg', hc⟩ | ⟨-, hno⟩)
      · -- the attempt granted first is the one the loop ends with
        have he' := (hiff _ addr').2 ⟨j, hg', rfl⟩
        rw [he, Expansion.expanded.injEq] at he'
        rw [he'.1, he'.2]
        exact hc
      · exact absurd ⟨i, addr, hg⟩ hno
  · rw [safe_iff_of_not_expanded h hx fun size addr he => hg <| by
      obtain ⟨i, hi, -⟩ := (hiff size addr).1 he
      exact ⟨i, addr, hi⟩]
    constructor
    · exact fun hf => .inr ⟨hf, hg⟩
    · rintro (⟨i, addr, hi, -⟩ | ⟨hf, -⟩)
      · exact absurd ⟨i, addr, hi⟩ hg
      · exact hf

/-- A pool of 102400 bytes with one string of 100000, reclaimed too little of for the second time. -/
def fullPool : Stp where
  stringpool := ⟨800, 100800, 103200, 103200, 0, false⟩
  mem a := UInt8.ofNat a
  mstrs _ := ⟨800, 100000⟩
  lowReclaimPasses := 1
  incrFactor := 1
  stopNonMandatoryExpansion := false

theorem fullPool_wf : fullPool.WF false [0] where
  live := ⟨by decide, by decide, by decide, by decide, fun _ _ h => by simp at h⟩
  base_le := by decide
  free_le := by decide
  base_aligned := by decide
  incrFactor_pos := by decide

/-- Without memory for the expansion the pool would like, `stp_gcol` returns with the live string above `stringpool.free`. -/
theorem stpGcol_loses_strings_without_memory :
    ¬ ∀ (env : StpEnv) (s : Stp) (live : List Nat) (spaceAsked : Nat), s.WF env.mstrNativeAlign live → env.Fresh s.stringpool →
      s.Expands env live spaceAsked → s.Safe live spaceAsked (s.stpGcol env live spaceAsked) := by
  intro h
  have hx : fullPool.Expands (noMemory false) [0] 8 := by decide
  have hsafe := h (noMemory false) fullPool [0] 8 fullPool_wf (noMemory_fresh false _) hx
  rw [safe_iff_of_not_expanded fullPool_wf hx] at hsafe
  · exact absurd hsafe (by decide)
  · intro size addr he
    obtain ⟨i, hg, -⟩ := (expansion_expanded_iff fullPool (noMemory false) [0] 8 size addr (by decide)).1 he
    simpa [answer, noMemory] using hg.granted

/-- Memory above the pool for every attempt. -/
def someMemory : StpEnv := ⟨false, 4096, fun _ _ => some 1048576⟩

theorem stpGcol_safe_iff_full_pool : fullPool.Safe [0] 8 (fullPool.stpGcol someMemory [0] 8) := by
  refine (stpGcol_safe_iff someMemory fullPool [0] 8 fullPool_wf ⟨by decide, ?_⟩ (by decide)).2 (.inl ⟨0, 1048576, ?_, by decide⟩)
  · intro i len addr h
    obtain rfl : 1048576 = addr := by simpa [someMemory] using h
    exact ⟨by decide, .inl (by decide)⟩
  · exact ⟨Nat.le_refl _, fun j _ hj => absurd hj (Nat.not_lt_zero j), by decide, rfl⟩

end Gtm
