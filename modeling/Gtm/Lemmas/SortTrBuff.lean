import Gtm.Lib.RunMerge
import Gtm.Repl.SortTrBuff

/-!
# The records of a transaction buffer

The walk over a buffer goes from record to record, and the merge keeps, for each region, the records that are still to be copied.
-/

namespace Gtm

namespace SortBuf

open RunMerge

variable {beyond : Nat → Nat} {b : List UInt8} {off : Nat}

/-- A record, with the type and the update number that are in it. -/
structure JnlRec where
  bytes : List UInt8
  rectype : Nat
  updateNum : Nat
  deriving DecidableEq

/-- The bytes of records. -/
def recBytes (rs : List JnlRec) : List UInt8 := (rs.map JnlRec.bytes).flatten

/-- How long they are. -/
def size (rs : List JnlRec) : Nat := (recBytes rs).length

@[simp] theorem recBytes_nil : recBytes [] = [] := rfl

@[simp] theorem recBytes_cons (r : JnlRec) (rs : List JnlRec) : recBytes (r :: rs) = r.bytes ++ recBytes rs := rfl

@[simp] theorem recBytes_append (rs rs' : List JnlRec) : recBytes (rs ++ rs') = recBytes rs ++ recBytes rs' := by
  simp [recBytes]

@[simp] theorem size_nil : size [] = 0 := rfl

@[simp] theorem size_cons (r : JnlRec) (rs : List JnlRec) : size (r :: rs) = r.bytes.length + size rs := by simp [size]

@[simp] theorem size_append (rs rs' : List JnlRec) : size (rs ++ rs') = size rs + size rs' := by simp [size]

/-- A record in a buffer. -/
structure RecAt (b : List UInt8) (off : Nat) (r : JnlRec) : Prop where
  word : ∃ w, u32At b off = some w ∧ jrecType w = r.rectype ∧ forwptr w = r.bytes.length
  pos : 0 < r.bytes.length
  bytes : (b.drop off).take r.bytes.length = r.bytes

/-- The update number of a record in a buffer. -/
def UpdAt (b : List UInt8) (off : Nat) (r : JnlRec) : Prop := u32At b (off + UPDATE_NUM) = some r.updateNum

/-- Records that follow each other in a buffer, those that `p` holds of with an update number. -/
def Chain (p : JnlRec → Prop) (b : List UInt8) : Nat → List JnlRec → Prop
  | _, [] => True
  | off, r :: rs => RecAt b off r ∧ (p r → UpdAt b off r) ∧ Chain p b (off + r.bytes.length) rs

variable {p : JnlRec → Prop} {rs rs' : List JnlRec} {priv : List UInt8} {r : RegJrecInfo} {qs done : List (List JnlRec)}
variable {regs : List RegJrecInfo} {bound : Nat} {m : MinScan} {s : Scan}

theorem chain_append : Chain p b off (rs ++ rs') ↔ Chain p b off rs ∧ Chain p b (off + size rs) rs' := by
  induction rs generalizing off with
  | nil => simp [Chain]
  | cons r rs ih => simp only [List.cons_append, Chain, ih, size_cons, Nat.add_assoc, and_assoc]

theorem Chain.imp {q : JnlRec → Prop} (h : Chain p b off rs) (hpq : ∀ r ∈ rs, q r → p r) : Chain q b off rs := by
  induction rs generalizing off with
  | nil => trivial
  | cons r rs ih =>
    exact ⟨h.1, fun hr => h.2.1 (hpq r List.mem_cons_self hr), ih h.2.2 fun x hx => hpq x (List.mem_cons_of_mem _ hx)⟩

/-- The bytes of the records are those of the buffer. -/
theorem Chain.slice (h : Chain p b off rs) : (b.drop off).take (size rs) = recBytes rs := by
  induction rs generalizing off with
  | nil => simp
  | cons r rs ih =>
    rw [size_cons, recBytes_cons, List.take_add, h.1.bytes, List.drop_drop, ih h.2.2]

theorem length_le_size (h : Chain p b off rs) : rs.length ≤ size rs := by
  induction rs generalizing off with
  | nil => rfl
  | cons r rs ih =>
    have := h.1.pos
    have := ih h.2.2
    rw [List.length_cons, size_cons]
    omega

/-! ## The search for the least update number -/

/-- The search over what is left of the regions. -/
def minFold : List (List JnlRec) → Nat → MinScan → MinScan
  | [], _, m => m
  | [] :: qs, regIdx, m => minFold qs (regIdx + 1) m
  | (x :: _) :: qs, regIdx, m => minFold qs (regIdx + 1) (minStep regIdx x.updateNum m)

/-- What is left of a region, in the private copy. -/
structure Points (priv : List UInt8) (r : RegJrecInfo) (q : List JnlRec) : Prop where
  chain : Chain (fun _ => True) priv r.workingOffset q
  endOffset : r.endOffset = r.workingOffset + size q
  inside : r.endOffset ≤ priv.length

theorem Points.nil_iff {q : List JnlRec} (h : Points priv r q) : r.endOffset ≤ r.workingOffset ↔ q = [] := by
  rw [h.endOffset]
  cases q with
  | nil => simp
  | cons x q =>
    have := h.chain.1.pos
    simp only [size_cons, reduceCtorEq, iff_false]
    omega

theorem findMin_eq (hlen : regs.length = qs.length)
    (h : ∀ (i : Nat) r q, regs[i]? = some r → qs[i]? = some q → Points priv r q) (regIdx : Nat) (m : MinScan) :
    findMin priv regs regIdx m = some (minFold qs regIdx m) := by
  induction regs generalizing qs regIdx m with
  | nil =>
    obtain rfl := List.length_eq_zero_iff.1 hlen.symm
    rfl
  | cons r regs ih =>
    cases qs with
    | nil => simp at hlen
    | cons q qs =>
      have hpoints := h 0 r q rfl rfl
      have hrest : ∀ regIdx m, findMin priv regs regIdx m = some (minFold qs regIdx m) :=
        ih (by simpa using hlen) fun i r' q' hr hq => h (i + 1) r' q' hr hq
      rw [findMin]
      cases q with
      | nil => rw [if_pos (hpoints.nil_iff.2 rfl), hrest, minFold]
      | cons x q =>
        have hne : ¬ r.endOffset ≤ r.workingOffset := fun hle => by simpa using hpoints.nil_iff.1 hle
        have hupd := hpoints.chain.2.1 trivial
        rw [if_neg hne, hupd]
        exact hrest _ _

/-- What the search knows of the regions it has seen, when every update number is below `bound`. -/
structure Least (bound : Nat) (done : List (List JnlRec)) (m : MinScan) : Prop where
  le : m.minVal ≤ m.nextMinVal
  empty : m.sortingNeeded = false → (∀ q ∈ done, q = []) ∧ m.minVal = bound
  least : m.sortingNeeded = true → ∃ x q, done[m.minUpdnumReg]? = some (x :: q) ∧ x.updateNum = m.minVal
  others : ∀ j y q, done[j]? = some (y :: q) → j ≠ m.minUpdnumReg → m.nextMinVal ≤ y.updateNum

theorem getElem?_concat {α : Type*} {l : List α} {a x : α} {j : Nat} (h : (l ++ [a])[j]? = some x) :
    l[j]? = some x ∨ j = l.length ∧ x = a := by
  rcases Nat.lt_trichotomy j l.length with hlt | rfl | hgt
  · rw [List.getElem?_append_left hlt] at h
    exact .inl h
  · rw [List.getElem?_concat_length] at h
    exact .inr ⟨rfl, (Option.some.inj h).symm⟩
  · rw [List.getElem?_eq_none (by rw [List.length_append, List.length_singleton]; omega)] at h
    cases h

theorem Least.skip (h : Least bound done m) : Least bound (done ++ [[]]) m where
  le := h.le
  empty hno := by
    obtain ⟨hall, hmin⟩ := h.empty hno
    refine ⟨fun q hq => ?_, hmin⟩
    rcases List.mem_append.1 hq with hq | hq
    · exact hall q hq
    · exact List.mem_singleton.1 hq
  least hyes := by
    obtain ⟨x, q, hx, hmin⟩ := h.least hyes
    refine ⟨x, q, ?_, hmin⟩
    rw [List.getElem?_append_left (List.getElem?_eq_some_iff.1 hx).1, hx]
  others j y q hj hne := by
    rcases getElem?_concat hj with hj | ⟨-, hnil⟩
    · exact h.others j y q hj hne
    · cases hnil

theorem Least.step {x : JnlRec} {q : List JnlRec} (h : Least bound done m)
    (hx : x.updateNum < bound) : Least bound (done ++ [x :: q]) (minStep done.length x.updateNum m) := by
  have hknown (j : Nat) (y : JnlRec) (p : List JnlRec) (hj : done[j]? = some (y :: p)) : m.sortingNeeded = true := by
    by_contra hno
    have := (h.empty (by simpa using hno)).1 _ (List.mem_of_getElem? hj)
    cases this
  rw [minStep]
  by_cases hlt : x.updateNum < m.minVal
  · rw [if_pos hlt]
    refine ⟨hlt.le, fun hno => by simp at hno, fun _ => ⟨x, q, List.getElem?_concat_length, rfl⟩, fun j y p hj hne => ?_⟩
    rcases getElem?_concat hj with hj | ⟨hj, -⟩
    · obtain ⟨x', q', hx', hmin⟩ := h.least (hknown j y p hj)
      by_cases heq : j = m.minUpdnumReg
      · rw [← heq, hj] at hx'
        cases hx'
        exact hmin.ge
      · exact h.le.trans (h.others j y p hj heq)
    · exact absurd hj hne
  · have hneeded : m.sortingNeeded = true := by
      by_contra hno
      have := (h.empty (by simpa using hno)).2
      omega
    obtain ⟨x', q', hx', hmin⟩ := h.least hneeded
    have hkeep : (done ++ [x :: q])[m.minUpdnumReg]? = some (x' :: q') := by
      rw [List.getElem?_append_left (List.getElem?_eq_some_iff.1 hx').1, hx']
    rw [if_neg hlt]
    by_cases hnext : x.updateNum < m.nextMinVal
    · rw [if_pos hnext]
      refine ⟨not_lt.1 hlt, fun hno => by simp at hno, fun _ => ⟨x', q', hkeep, hmin⟩, fun j y p hj hne => ?_⟩
      rcases getElem?_concat hj with hj | ⟨-, heq⟩
      · exact hnext.le.trans (h.others j y p hj hne)
      · cases heq
        exact le_refl _
    · rw [if_neg hnext]
      refine ⟨h.le, fun hno => by simp at hno, fun _ => ⟨x', q', hkeep, hmin⟩, fun j y p hj hne => ?_⟩
      rcases getElem?_concat hj with hj | ⟨-, heq⟩
      · exact h.others j y p hj hne
      · cases heq
        exact not_lt.1 hnext

theorem minFold_least (done qs : List (List JnlRec)) (h : Least bound done m)
    (hqs : ∀ q ∈ qs, ∀ x ∈ q, x.updateNum < bound) : Least bound (done ++ qs) (minFold qs done.length m) := by
  induction qs generalizing done m with
  | nil => simpa [minFold] using h
  | cons q qs ih =>
    have hrest : ∀ q ∈ qs, ∀ x ∈ q, x.updateNum < bound := fun q' hq' => hqs q' (List.mem_cons_of_mem _ hq')
    have hlen : (done ++ [q]).length = done.length + 1 := by simp
    rw [List.append_cons]
    cases q with
    | nil =>
      rw [minFold, ← hlen]
      exact ih _ h.skip hrest
    | cons x q =>
      rw [minFold, ← hlen]
      exact ih _ (h.step (hqs _ List.mem_cons_self x List.mem_cons_self)) hrest

/-! ## The merge -/

/-- The records before the first one that does not come before the next region. -/
def runOf (nextMinVal : Nat) (q : List JnlRec) : List JnlRec := q.takeWhile fun x => decide (x.updateNum < nextMinVal)

theorem runEnd_eq {q : List JnlRec} (nextMinVal fuel : Nat) (h : Chain (fun _ => True) priv off q) (hfuel : q.length < fuel) :
    runEnd priv nextMinVal (off + size q) fuel off = some (off + size (runOf nextMinVal q)) := by
  induction q generalizing off fuel with
  | nil =>
    obtain ⟨fuel, rfl⟩ : ∃ f, fuel = f + 1 := ⟨fuel - 1, by omega⟩
    rw [runEnd, size_nil, if_neg (by omega)]
    rfl
  | cons x q ih =>
    obtain ⟨fuel, rfl⟩ : ∃ f, fuel = f + 1 := ⟨fuel - 1, by omega⟩
    obtain ⟨hrec, hupd, hchain⟩ := h
    obtain ⟨w, hw, -, hlen⟩ := hrec.word
    have hpos := hrec.pos
    rw [List.length_cons] at hfuel
    rw [runEnd, size_cons, if_pos (by omega), hw, hupd trivial]
    simp only [Option.bind_eq_bind, Option.bind_some, hlen, Option.pure_def]
    by_cases hlt : x.updateNum < nextMinVal
    · have hrun : runOf nextMinVal (x :: q) = x :: runOf nextMinVal q := List.takeWhile_cons_of_pos (by simpa using hlt)
      rw [if_pos hlt, hrun, size_cons, ← Nat.add_assoc, ← Nat.add_assoc]
      exact ih _ hchain (by omega)
    · have hrun : runOf nextMinVal (x :: q) = [] := List.takeWhile_cons_of_neg (by simpa using hlt)
      rw [if_neg hlt, hrun]
      rfl

theorem copyRun_eq (priv done left : List UInt8) (src len : Nat) (hsrc : src + len ≤ priv.length) (hdst : len ≤ left.length) :
    copyRun priv (done ++ left) src done.length len = some ((done ++ (priv.drop src).take len) ++ left.drop len) := by
  have hdrop : (done ++ left).drop (done.length + len) = left.drop len := by rw [← List.drop_drop, List.drop_left]
  rw [copyRun, if_pos ⟨hsrc, by rw [List.length_append]; omega⟩, List.take_left, hdrop]

/-- Every region points to its records. -/
def AllPoint (priv : List UInt8) (regs : List RegJrecInfo) (qs : List (List JnlRec)) : Prop :=
  ∀ (i : Nat) q, qs[i]? = some q → ∃ r, regs[i]? = some r ∧ Points priv r q

theorem AllPoint.findMin (h : AllPoint priv regs qs) (m : MinScan) : findMin priv (regs.take qs.length) 0 m = some (minFold qs 0 m) := by
  have hlen : qs.length ≤ regs.length := by
    by_contra hlt
    obtain ⟨r, hr, -⟩ := h regs.length _ (List.getElem?_eq_getElem (not_le.1 hlt))
    simp at hr
  refine findMin_eq (by rw [List.length_take, Nat.min_eq_left hlen]) (fun i r q hr hq => ?_) 0 m
  obtain ⟨r', hr', hpoints⟩ := h i q hq
  rw [List.getElem?_take_of_lt (List.getElem?_eq_some_iff.1 hq).1, hr'] at hr
  cases hr
  exact hpoints

theorem AllPoint.set (h : AllPoint priv regs qs) {i : Nat}
    {q : List JnlRec} (hr : Points priv r q) : AllPoint priv (regs.set i r) (qs.set i q) := by
  intro j p hj
  by_cases hij : i = j
  · subst hij
    have hi : i < qs.length := by simpa using (List.getElem?_eq_some_iff.1 hj).1
    rw [List.getElem?_set_self hi] at hj
    cases hj
    obtain ⟨r', hr', -⟩ := h i _ (List.getElem?_eq_getElem hi)
    exact ⟨r, List.getElem?_set_self (List.getElem?_eq_some_iff.1 hr').1, hr⟩
  · rw [List.getElem?_set_ne hij] at hj ⊢
    exact h j p hj

theorem Points.advance {q q' : List JnlRec} (h : Points priv r (q ++ q')) :
    Points priv { r with workingOffset := r.workingOffset + size q } q' where
  chain := (chain_append.1 h.chain).2
  endOffset := by
    rw [h.endOffset, size_append, Nat.add_assoc]
  inside := h.inside

/-- Records in the order of their update numbers. -/
def InOrder (rs : List JnlRec) : Prop := rs.Pairwise fun x y => x.updateNum ≤ y.updateNum

theorem size_perm (h : rs.Perm rs') : size rs = size rs' := by
  induction h with
  | nil => rfl
  | cons x _ ih => rw [size_cons, size_cons, ih]
  | swap x y l =>
    simp only [size_cons]
    omega
  | trans _ _ ih ih' => exact ih.trans ih'

/-- What the merge leaves: the records of the regions interleaved, in order if those of each region are. -/
theorem mergeRegions_spec {maxUpdnum : Nat} (done left : List UInt8)
    (fuel : Nat) (hupd : ∀ q ∈ qs, ∀ x ∈ q, x.updateNum < (maxUpdnum + 1) % 2 ^ 32) (hpoint : AllPoint priv regs qs)
    (hroom : size qs.flatten ≤ left.length) (hfuel : qs.flatten.length < fuel) :
    ∃ out regs', mergeRegions priv qs.length maxUpdnum fuel regs done.length (done ++ left) =
        some (done ++ recBytes out ++ left.drop (size out), regs') ∧ Interleaving qs out ∧ ((∀ q ∈ qs, InOrder q) → InOrder out) := by
  induction fuel generalizing regs qs done left with
  | zero => omega
  | succ fuel ih =>
    have hleast : Least ((maxUpdnum + 1) % 2 ^ 32) qs (minFold qs 0 ⟨0, (maxUpdnum + 1) % 2 ^ 32, (maxUpdnum + 1) % 2 ^ 32, false⟩) := by
      refine minFold_least [] qs ⟨le_refl _, fun _ => ⟨fun q hq => (by cases hq), rfl⟩, fun hno => (by cases hno), fun j y q hj => ?_⟩ hupd
      simp at hj
    rw [mergeRegions, hpoint.findMin]
    simp only [Option.bind_eq_bind, Option.bind_some]
    generalize minFold qs 0 ⟨0, (maxUpdnum + 1) % 2 ^ 32, (maxUpdnum + 1) % 2 ^ 32, false⟩ = m at hleast
    by_cases hneeded : m.sortingNeeded = true
    · obtain ⟨x, q, hq, hmin⟩ := hleast.least hneeded
      obtain ⟨r, hr, hpoints⟩ := hpoint _ _ hq
      obtain ⟨hrec, -, hchain⟩ := hpoints.chain
      obtain ⟨w, hw, -, hlen⟩ := hrec.word
      have hend : r.endOffset = r.workingOffset + x.bytes.length + size q := by rw [hpoints.endOffset, size_cons, Nat.add_assoc]
      have hlong := length_le_size hchain
      have hnext := runEnd_eq m.nextMinVal (priv.length + 1) hchain (by have := hpoints.inside; omega)
      rw [← hend] at hnext
      obtain ⟨rest, hsplit⟩ : ∃ rest, q = runOf m.nextMinVal q ++ rest := ⟨_, List.takeWhile_append_dropWhile.symm⟩
      have hbelow : ∀ y ∈ runOf m.nextMinVal q, y.updateNum < m.nextMinVal := fun y hy => by simpa using List.mem_takeWhile_imp hy
      generalize runOf m.nextMinVal q = run at hnext hsplit hbelow
      subst hsplit
      rw [← List.cons_append] at hq hpoints
      have hcopied : r.workingOffset + x.bytes.length + size run - r.workingOffset = size (x :: run) := by rw [size_cons]; omega
      have hset : r.workingOffset + x.bytes.length + size run = r.workingOffset + size (x :: run) := by rw [size_cons, Nat.add_assoc]
      have hslice := (chain_append.1 hpoints.chain).1.slice
      have hinside := hpoints.inside
      rw [hpoints.endOffset, size_append] at hinside
      have hperm := flatten_set_perm hq
      have hsize := size_perm hperm
      have hcount := hperm.length_eq
      rw [size_append] at hsize
      rw [List.length_append, List.length_cons] at hcount
      have hcopy := copyRun_eq priv done left r.workingOffset (size (x :: run)) (by omega) (by omega)
      rw [hslice] at hcopy
      have hdone : (done ++ recBytes (x :: run)).length = done.length + size (x :: run) := List.length_append
      have hupd' : ∀ q ∈ qs.set m.minUpdnumReg rest, ∀ x ∈ q, x.updateNum < (maxUpdnum + 1) % 2 ^ 32 := fun p hp y hy => by
        rcases List.mem_or_eq_of_mem_set hp with hp | rfl
        · exact hupd p hp y hy
        · exact hupd _ (List.mem_of_getElem? hq) y (List.mem_append_right _ hy)
      obtain ⟨out, regs', hrun, hinter, horder⟩ := ih (done ++ recBytes (x :: run)) (left.drop (size (x :: run))) hupd'
        (hpoint.set hpoints.advance) (by rw [List.length_drop]; omega) (by omega)
      rw [List.length_set, hdone] at hrun
      refine ⟨x :: run ++ out, regs', ?_, .append_run hq hinter, fun hsorted => ?_⟩
      · rw [if_pos hneeded]
        simp only [hr, hw, hlen, hnext, hcopied, hcopy, Option.bind_some]
        rw [hset, hrun, List.drop_drop, recBytes_append, size_append, ← List.append_assoc done]
      · refine Interleaving.pairwise_append (fun _ _ _ => le_trans) hq hsorted ?_ hinter (horder fun p hp => ?_)
        · intro j y p hne hj z hz
          have hother := hleast.others j y p hj hne
          rcases List.mem_cons.1 hz with rfl | hz
          · exact hmin.le.trans (hleast.le.trans hother)
          · exact (hbelow z hz).le.trans hother
        · rcases List.mem_or_eq_of_mem_set hp with hp | rfl
          · exact hsorted p hp
          · exact (List.pairwise_append.1 (hsorted _ (List.mem_of_getElem? hq))).2.1
    · have hempty := (hleast.empty (by simpa using hneeded)).1
      refine ⟨[], regs, ?_, .nil hempty, fun _ => List.Pairwise.nil⟩
      rw [if_neg hneeded, recBytes_nil, List.append_nil, size_nil]
      rfl

/-! ## The walk -/

/-- The walk over records. -/
def scanFold (beyond : Nat → Nat) : Nat → List JnlRec → Scan → Option Scan
  | _, [], s => some s
  | off, r :: rs, s =>
    if isUpdate beyond r.rectype then (scanUpdate beyond r.rectype r.updateNum off s).bind (scanFold beyond (off + r.bytes.length) rs)
    else if (scanTcom off s).balanced < 0 then none
    else scanFold beyond (off + r.bytes.length) rs (scanTcom off s)

/-- From every record on there are at least as many bytes as a prefix has. -/
def Walkable : List JnlRec → Prop
  | [] => True
  | r :: rs => JREC_PREFIX_SIZE ≤ size (r :: rs) ∧ Walkable rs

/-- A buffer's records, those that are updates with their update number. -/
abbrev Records (beyond : Nat → Nat) (b : List UInt8) (off : Nat) (rs : List JnlRec) : Prop :=
  Chain (fun r => isUpdate beyond r.rectype = true) b off rs

theorem scanRecords_records {s' : Scan} {fuel : Nat} (h : Records beyond b off rs) (hwalk : Walkable rs)
    (hs : scanFold beyond off rs s = some s') (hfuel : rs.length < fuel) : scanRecords beyond b fuel off (size rs) s = some (some 0, s') := by
  induction rs generalizing off s fuel with
  | nil =>
    obtain ⟨fuel, rfl⟩ : ∃ f, fuel = f + 1 := ⟨fuel - 1, by omega⟩
    obtain rfl := Option.some.inj hs
    rw [scanRecords, size_nil, if_pos (by decide)]
  | cons r rs ih =>
    obtain ⟨fuel, rfl⟩ : ∃ f, fuel = f + 1 := ⟨fuel - 1, by omega⟩
    obtain ⟨hrec, hupd, hchain⟩ := h
    obtain ⟨w, hw, htype, hlen⟩ := hrec.word
    have hpos := hrec.pos
    rw [List.length_cons] at hfuel
    have hgood : ¬ (r.bytes.length = 0 ∨ size (r :: rs) < r.bytes.length) := by rw [size_cons]; omega
    have hleft : size (r :: rs) - r.bytes.length = size rs := by rw [size_cons]; omega
    rw [scanRecords, if_neg (not_lt.2 hwalk.1), hw]
    simp only [Option.bind_eq_bind, Option.bind_some, htype, hlen, if_neg hgood, hleft, Option.pure_def]
    rw [scanFold] at hs
    by_cases hup : isUpdate beyond r.rectype = true
    · rw [if_pos hup] at hs ⊢
      rw [hupd hup, Option.bind_some]
      obtain ⟨s₁, hs₁, hs⟩ := Option.bind_eq_some_iff.1 hs
      rw [hs₁]
      exact ih hchain hwalk.2 hs (by omega)
    · rw [if_neg hup] at hs ⊢
      by_cases hneg : (scanTcom off s).balanced < 0
      · rw [if_pos hneg] at hs
        cases hs
      · rw [if_neg hneg] at hs ⊢
        exact ih hchain hwalk.2 hs (by omega)

theorem scanFold_append : scanFold beyond off (rs ++ rs') s = (scanFold beyond off rs s).bind (scanFold beyond (off + size rs) rs') := by
  induction rs generalizing off s with
  | nil => simp [scanFold]
  | cons r rs ih =>
    rw [List.cons_append, scanFold, scanFold]
    by_cases hup : isUpdate beyond r.rectype = true
    · rw [if_pos hup, if_pos hup]
      cases scanUpdate beyond r.rectype r.updateNum off s with
      | none => rfl
      | some s₁ => rw [Option.bind_some, Option.bind_some, ih, size_cons, Nat.add_assoc]
    · rw [if_neg hup, if_neg hup]
      by_cases hneg : (scanTcom off s).balanced < 0
      · rw [if_pos hneg, if_pos hneg]
        rfl
      · rw [if_neg hneg, if_neg hneg, ih, size_cons, Nat.add_assoc]

/-! ### Regions -/

/-- The update records of one region: the first one begins a transaction, the others do not. -/
inductive IsRegion (beyond : Nat → Nat) : List JnlRec → Prop
  | mk {t : JnlRec} {us : List JnlRec} (first : isTupd beyond t.rectype = true) (update : isUpdate beyond t.rectype = true)
      (others : ∀ u ∈ us, isTupd beyond u.rectype = false ∧ isUpdate beyond u.rectype = true) : IsRegion beyond (t :: us)

/-- The variables of the walk that depend on the update numbers only. -/
def updFold (rs : List JnlRec) (s : Scan) : Scan :=
  rs.foldl (fun s r => { s with
    alreadySorted := s.alreadySorted && decide (s.prevUpdnum ≤ r.updateNum), maxUpdnum := max s.maxUpdnum r.updateNum,
    prevUpdnum := r.updateNum }) s

theorem updFold_frame (rs : List JnlRec) (s : Scan) : (updFold rs s).regIdx = s.regIdx ∧ (updFold rs s).balanced = s.balanced ∧
    (updFold rs s).firstTcomOffset = s.firstTcomOffset ∧ (updFold rs s).regs = s.regs := by
  induction rs generalizing s with
  | nil => exact ⟨rfl, rfl, rfl, rfl⟩
  | cons r rs ih => exact ih _

theorem updFold_max (rs : List JnlRec) (s : Scan) :
    s.maxUpdnum ≤ (updFold rs s).maxUpdnum ∧ ∀ r ∈ rs, r.updateNum ≤ (updFold rs s).maxUpdnum := by
  induction rs generalizing s with
  | nil => exact ⟨le_refl _, fun r hr => nomatch hr⟩
  | cons r rs ih =>
    obtain ⟨hmax, hall⟩ := ih { s with
      alreadySorted := s.alreadySorted && decide (s.prevUpdnum ≤ r.updateNum), maxUpdnum := max s.maxUpdnum r.updateNum, prevUpdnum := r.updateNum }
    refine ⟨(le_max_left _ _).trans hmax, fun x hx => ?_⟩
    rcases List.mem_cons.1 hx with rfl | hx
    · exact (le_max_right _ _).trans hmax
    · exact hall x hx

/-- The walk over updates that begin no transaction. -/
theorem scanFold_others {us : List JnlRec} (h : ∀ u ∈ us, isTupd beyond u.rectype = false ∧ isUpdate beyond u.rectype = true) :
    scanFold beyond off us s = some (updFold us s) := by
  induction us generalizing off s with
  | nil => rfl
  | cons u us ih =>
    obtain ⟨htupd, hup⟩ := h u List.mem_cons_self
    rw [scanFold, if_pos hup, scanUpdate, if_neg (by simp [htupd])]
    exact ih fun v hv => h v (List.mem_cons_of_mem _ hv)

/-- The variables of the walk before the first record. -/
def scanStart (regs : List RegJrecInfo) : Scan := ⟨true, 0, 0, 0, 0, 0, regs⟩

/-- The walk knows of every region it has seen where its records are, but for the end of the last one. -/
structure Marked (regs : List RegJrecInfo) (done : List (List JnlRec)) (s : Scan) : Prop where
  idx : s.regIdx = done.length
  balanced : s.balanced = done.length
  tcom : s.firstTcomOffset = 0
  length : s.regs.length = regs.length
  starts : ∀ i < done.length, ∃ r, s.regs[i]? = some r ∧ r.workingOffset = size (done.take i).flatten ∧
    (i + 1 < done.length → r.endOffset = size (done.take (i + 1)).flatten)
  sorted : s.alreadySorted = (updFold done.flatten (scanStart regs)).alreadySorted
  greatest : s.maxUpdnum = (updFold done.flatten (scanStart regs)).maxUpdnum
  prev : s.prevUpdnum = (updFold done.flatten (scanStart regs)).prevUpdnum

/-- Two states that agree on what depends on the update numbers still do after more records. -/
theorem updFold_congr (rs : List JnlRec) (s s' : Scan) (hsorted : s.alreadySorted = s'.alreadySorted) (hmax : s.maxUpdnum = s'.maxUpdnum)
    (hprev : s.prevUpdnum = s'.prevUpdnum) :
    (updFold rs s).alreadySorted = (updFold rs s').alreadySorted ∧ (updFold rs s).maxUpdnum = (updFold rs s').maxUpdnum ∧
      (updFold rs s).prevUpdnum = (updFold rs s').prevUpdnum := by
  induction rs generalizing s s' with
  | nil => exact ⟨hsorted, hmax, hprev⟩
  | cons r rs ih => exact ih _ _ (by simp [hsorted, hprev]) (by simp [hmax]) rfl

theorem updFold_append (rs rs' : List JnlRec) (s : Scan) : updFold (rs ++ rs') s = updFold rs' (updFold rs s) := List.foldl_append

/-- The entries after the begin of a region at an offset. -/
def markBegin (regs : List RegJrecInfo) (k off : Nat) : List RegJrecInfo :=
  if 0 < k then (regs.modify k fun r => { r with workingOffset := off }).modify (k - 1) fun r => { r with endOffset := off }
  else regs.modify k fun r => { r with workingOffset := off }

@[simp] theorem length_markBegin (regs : List RegJrecInfo) (k off : Nat) : (markBegin regs k off).length = regs.length := by
  unfold markBegin
  by_cases h : 0 < k <;> simp [h]

theorem getElem?_markBegin (regs : List RegJrecInfo) (k off i : Nat) :
    (markBegin regs k off)[i]? = regs[i]?.map fun r => ⟨if i = k then off else r.workingOffset, if i + 1 = k then off else r.endOffset⟩ := by
  have hback : k - 1 = i ↔ i + 1 = k ∨ (k = 0 ∧ i = 0) := by omega
  unfold markBegin
  by_cases h : 0 < k
  · have hne : ¬ (k = 0 ∧ i = 0) := by omega
    rw [if_pos h, List.getElem?_modify, List.getElem?_modify]
    simp only [hback, hne, or_false, eq_comm (a := k) (b := i)]
    cases regs[i]? with
    | none => rfl
    | some r => by_cases h₁ : i = k <;> by_cases h₂ : i + 1 = k <;> simp [h₁, h₂]
  · have hne : ¬ i + 1 = k := by omega
    rw [if_neg h, List.getElem?_modify]
    simp only [hne, eq_comm (a := k) (b := i)]
    cases regs[i]? with
    | none => rfl
    | some r => by_cases h₁ : i = k <;> simp [h₁]

/-- The first record of a region. -/
theorem scanUpdate_tupd {t n : Nat} (first : isTupd beyond t = true) (hroom : s.regIdx < s.regs.length) : scanUpdate beyond t n off s = some
      ⟨s.alreadySorted && decide (s.prevUpdnum ≤ n), n, max s.maxUpdnum n, s.regIdx + 1, s.balanced + 1, s.firstTcomOffset,
        markBegin s.regs s.regIdx off⟩ := by
  rw [scanUpdate, if_pos first, beginRegion, if_pos hroom]
  rfl

theorem Marked.region {q : List JnlRec} (h : Marked regs done s) (hq : IsRegion beyond q) (hroom : done.length < regs.length) :
    ∃ s', scanFold beyond (size done.flatten) q s = some s' ∧ Marked regs (done ++ [q]) s' := by
  obtain ⟨first, update, others⟩ := hq
  rename_i t us
  have hlt : s.regIdx < s.regs.length := by rw [h.idx, h.length]; exact hroom
  set s₁ : Scan := ⟨s.alreadySorted && decide (s.prevUpdnum ≤ t.updateNum), t.updateNum, max s.maxUpdnum t.updateNum, s.regIdx + 1,
    s.balanced + 1, s.firstTcomOffset, markBegin s.regs s.regIdx (size done.flatten)⟩ with hs₁
  have hrun : scanFold beyond (size done.flatten) (t :: us) s = some (updFold us s₁) := by
    rw [scanFold, if_pos update, scanUpdate_tupd first hlt]
    exact scanFold_others others
  obtain ⟨hidx, hbal, htcom, hregs⟩ := updFold_frame us s₁
  have hone : updFold [t] (updFold done.flatten (scanStart regs)) = { updFold done.flatten (scanStart regs) with
        alreadySorted := s₁.alreadySorted, maxUpdnum := s₁.maxUpdnum, prevUpdnum := s₁.prevUpdnum } := by
    simp only [updFold, List.foldl_cons, List.foldl_nil, hs₁, h.sorted, h.greatest, h.prev]
  have hupd := updFold_congr us s₁ (updFold [t] (updFold done.flatten (scanStart regs))) (by rw [hone]) (by rw [hone]) (by rw [hone])
  have hflat : updFold (done ++ [t :: us]).flatten (scanStart regs) = updFold us (updFold [t] (updFold done.flatten (scanStart regs))) := by
    rw [← updFold_append, ← updFold_append]
    simp
  refine ⟨_, hrun, {
    idx := by rw [hidx, List.length_append, ← h.idx]; rfl
    balanced := by
      rw [hbal]
      simp only [hs₁, h.balanced, List.length_append, List.length_singleton]
      omega
    tcom := htcom.trans h.tcom
    length := by rw [hregs, length_markBegin, h.length]
    starts := fun i hi => ?_
    sorted := by rw [hflat]; exact hupd.1
    greatest := by rw [hflat]; exact hupd.2.1
    prev := by rw [hflat]; exact hupd.2.2 }⟩
  rw [List.length_append] at hi
  rw [hregs, getElem?_markBegin, h.idx]
  rcases Nat.lt_or_eq_of_le (Nat.lt_succ_iff.1 hi) with hold | rfl
  · obtain ⟨r, hr, hstart, hend⟩ := h.starts i hold
    rw [hr, List.take_append_of_le_length hold.le, List.take_append_of_le_length (show i + 1 ≤ done.length from hold)]
    refine ⟨_, rfl, by simp [hold.ne, hstart], fun hlast => ?_⟩
    dsimp only
    by_cases hnew : i + 1 = done.length
    · rw [if_pos hnew, hnew, List.take_length]
    · rw [if_neg hnew]
      exact hend (by omega)
  · obtain ⟨r, hr⟩ : ∃ r, s.regs[done.length]? = some r := ⟨_, List.getElem?_eq_getElem (by rw [h.length]; exact hroom)⟩
    rw [hr]
    refine ⟨_, rfl, by simp, fun hlast => ?_⟩
    rw [List.length_append, List.length_singleton] at hlast
    omega

/-- The walk over all regions. -/
theorem Marked.regions (h : Marked regs done s) (hqs : ∀ q ∈ qs, IsRegion beyond q) (hroom : done.length + qs.length ≤ regs.length) :
    ∃ s', scanFold beyond (size done.flatten) qs.flatten s = some s' ∧ Marked regs (done ++ qs) s' := by
  induction qs generalizing done s with
  | nil => exact ⟨s, rfl, by rwa [List.append_nil]⟩
  | cons q qs ih =>
    rw [List.length_cons] at hroom
    obtain ⟨s₁, hs₁, hmarked⟩ := h.region (hqs q List.mem_cons_self) (by omega)
    obtain ⟨s', hs', hdone⟩ := ih hmarked (fun p hp => hqs p (List.mem_cons_of_mem _ hp)) (by rw [List.length_append, List.length_singleton]; omega)
    have hsize : size (done ++ [q]).flatten = size done.flatten + size q := by simp
    rw [hsize] at hs'
    refine ⟨s', ?_, by rwa [← List.append_cons] at hdone⟩
    rw [List.flatten_cons, scanFold_append, hs₁, Option.bind_some, hs']

theorem marked_start (regs : List RegJrecInfo) : Marked regs [] (scanStart regs) where
  idx := rfl
  balanced := rfl
  tcom := rfl
  length := rfl
  starts i hi := absurd hi (Nat.not_lt_zero i)
  sorted := rfl
  greatest := rfl
  prev := rfl

/-- The walk over further TCOM records. -/
theorem scanFold_tcoms (off : Nat) {ts : List JnlRec} (hts : ∀ t ∈ ts, isUpdate beyond t.rectype = false) (hbal : (ts.length : Int) ≤ s.balanced)
    (hfirst : s.firstTcomOffset ≠ 0) : scanFold beyond off ts s = some { s with balanced := s.balanced - ts.length } := by
  induction ts generalizing off s with
  | nil => simp [scanFold]
  | cons t ts ih =>
    rw [List.length_cons] at hbal
    have hone : scanTcom off s = { s with balanced := s.balanced - 1 } := by rw [scanTcom, if_neg hfirst]
    have hrest := ih (off + t.bytes.length) (s := { s with balanced := s.balanced - 1 }) (fun x hx => hts x (List.mem_cons_of_mem _ hx))
      (by dsimp only; omega) hfirst
    rw [scanFold, if_neg (by simp [hts t List.mem_cons_self]), hone, if_neg (by dsimp only; omega), hrest]
    simp only [List.length_cons, Option.some.injEq, Scan.mk.injEq, and_true, true_and]
    omega

/-- The walk over the TCOM records at the end. -/
theorem scanFold_ends (off : Nat) {t : JnlRec} {ts : List JnlRec} (hts : ∀ u ∈ t :: ts, isUpdate beyond u.rectype = false)
    (hbal : (ts.length : Int) + 1 ≤ s.balanced) (hfirst : s.firstTcomOffset = 0) (hoff : 0 < off) :
    scanFold beyond off (t :: ts) s = some { s with balanced := s.balanced - (ts.length + 1), firstTcomOffset := off } := by
  have hone : scanTcom off s = { s with balanced := s.balanced - 1, firstTcomOffset := off } := by rw [scanTcom, if_pos hfirst]
  have hrest := scanFold_tcoms (off + t.bytes.length) (s := { s with balanced := s.balanced - 1, firstTcomOffset := off })
    (fun x hx => hts x (List.mem_cons_of_mem _ hx)) (by dsimp only; omega) hoff.ne'
  rw [scanFold, if_neg (by simp [hts t List.mem_cons_self]), hone, if_neg (by dsimp only; omega), hrest]
  simp only [Option.some.injEq, Scan.mk.injEq, and_true, true_and]
  omega

end SortBuf

end Gtm
