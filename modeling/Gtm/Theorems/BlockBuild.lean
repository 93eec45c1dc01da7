import Gtm.Lemmas.BlkBuild

/-!
# Built blocks

For every array as the callers build it, `gvcst_blk_build` makes the block of the segments as the old block held them, in a buffer of
its own or in that of the old block, and no piece is overwritten before it is moved.
-/

namespace Gtm

namespace BlockBuildAux

theorem overwrite_self (b : GdsBlk) (off len : Nat) : overwrite b.byte off (b.bytes off len) = b.byte := by
  funext i
  simp only [overwrite, GdsBlk.bytes, List.length_map, List.length_range]
  split_ifs with h
  · rw [List.getD_eq_getElem _ _ (by simp; omega)]
    simp only [List.getElem_map, List.getElem_range]
    congr 1
    omega
  · rfl

section Build

variable {env : BuildEnv} {base : Option BlkBuf} {old : Option GdsBlk} {cse : CwElem}

theorem headed_intact : Intact old (oldBlk env base old) (headed env base cse) cse.updAddr := by
  cases old <;> exact fun _ _ _ _ _ => rfl

/-- What holds of the segments that are moved to `ptr` and behind. -/
structure Moved (forwardProcess : Bool) (old : Option GdsBlk) (b₀ b : GdsBlk) (array segs : List Seg) (ptr : Nat) : Prop where
  intact : Intact old b₀ b segs
  ends : blkSegCnt array = ptr + (segs.map Seg.len).sum
  left (ho : old = none) (h : forwardProcess = true) (pre : List Seg) (off len : Nat) (post : List Seg) (hs : segs = pre ++ .buf off len :: post)
    (hp : pre ≠ []) : ptr + (pre.map Seg.len).sum ≤ off
  right (ho : old = none) (h : forwardProcess = false) (pre : List Seg) (off len : Nat) (post : List Seg) (hs : segs = pre ++ .buf off len :: post)
    (hp : post ≠ []) : off ≤ ptr + (pre.map Seg.len).sum
  bytes : overwrite b.byte blkHdrSize (segBytes b₀ array) = overwrite b.byte ptr (segBytes b₀ segs)

/-- The first segment is moved, or it is in its place. -/
theorem moved_segs (env : BuildEnv) (harr : old = none → CallerArray cse.forwardProcess cse.firstCopy cse.updAddr)
    (hold : old.isSome = true → cse.firstCopy = true ∨ base = none) :
    Moved cse.forwardProcess old (oldBlk env base old) (headed env base cse) cse.updAddr
      (movedSegs (cse.firstCopy || base.isNone) cse.updAddr) (forwardStart (cse.firstCopy || base.isNone) cse.updAddr) := by
  have hint : Intact old (oldBlk env base old) (headed env base cse) cse.updAddr := headed_intact
  cases hfc : cse.firstCopy || base.isNone with
  | true => exact ⟨hint, rfl, fun ho h _ _ _ _ hs hp => (harr ho).left h hs hp, fun ho h _ _ _ _ hs hp => (harr ho).right h hs hp, rfl⟩
  | false =>
    obtain ⟨hfirst, -⟩ := Bool.or_eq_false_iff.1 hfc
    have hnone : old = none := by
      cases old with
      | none => rfl
      | some o => rcases hold rfl with h | rfl <;> simp_all
    subst hnone
    have harr := harr rfl
    obtain ⟨len, rest, hsegs⟩ := harr.first hfirst
    have hself := overwrite_self (base.getD env.newBuff).blk blkHdrSize len
    have hmoved : movedSegs false cse.updAddr = rest := by rw [hsegs]; rfl
    have hstart : forwardStart false cse.updAddr = blkHdrSize + len := by rw [hsegs]; rfl
    have hcnt : ∀ pre, blkSegCnt (.buf blkHdrSize len :: pre) = blkHdrSize + len + (pre.map Seg.len).sum := fun pre => by
      simp only [blkSegCnt, List.map_cons, List.sum_cons, Seg.len]
      omega
    rw [hmoved, hstart]
    refine ⟨hint.mono (by simp [hsegs]), by rw [hsegs, hcnt], fun _ h pre off len' post hs hp => ?_, fun _ h pre off len' post hs hp => ?_,
      ?_⟩
    · rw [← hcnt]
      exact harr.left h (show cse.updAddr = (.buf blkHdrSize len :: pre) ++ .buf off len' :: post by rw [hsegs, hs]; rfl) (by simp)
    · rw [← hcnt]
      exact harr.right h (show cse.updAddr = (.buf blkHdrSize len :: pre) ++ .buf off len' :: post by rw [hsegs, hs]; rfl) hp
    · rw [hsegs, segBytes_cons, ← overwrite_append, Seg.length_bytes, Seg.len]
      congr 1

/-- What the pass leaves, in both directions. -/
theorem Moved.pass_eq {b₀ b : GdsBlk} {forwardProcess : Bool} {array segs : List Seg} {ptr : Nat}
    (h : Moved forwardProcess old b₀ b array segs ptr) :
    (if forwardProcess then forwardCopy old segs ptr b else backwardCopy old segs.reverse (blkSegCnt array) b) =
      { b with byte := overwrite b.byte blkHdrSize (segBytes b₀ array) } := by
  rw [h.bytes]
  cases hfw : forwardProcess with
  | true => exact forwardCopy_eq h.intact fun ho => h.left ho hfw
  | false =>
    rw [h.ends]
    exact backwardCopy_eq h.intact fun ho => h.right ho hfw

/-- What the pass leaves is what is built of the segments. -/
theorem overwrite_eq_buildBlk (b : GdsBlk) (levl : Nat) (segs : List Seg) :
    overwrite b.byte blkHdrSize (segBytes b segs) = (buildBlk b levl segs).byte := by
  funext i
  simp only [overwrite, buildBlk]
  split_ifs with h₁ h₂
  · omega
  · rw [List.getD_eq_getElem _ _ (by omega), List.getD_eq_getElem _ _ (by omega)]
  · rfl
  · rw [List.getD_eq_default _ _ (by omega)]

end Build

end BlockBuildAux

open BlockBuildAux

section Build

variable (env : BuildEnv) (base : Option BlkBuf) (old : Option GdsBlk) (ctn : Nat) (cse : CwElem)

/-- The built block has the bytes of the segments as they were in the old block, but for the link that a transaction writes. While
segments are moved, the pieces that come later in the pass are as they were. -/
theorem gvcstBlkBuild_segments (harr : old = none → CallerArray cse.forwardProcess cse.firstCopy cse.updAddr)
    (hold : old.isSome = true → cse.firstCopy = true ∨ base = none) :
    let array := cse.updAddr
    let b₀ := oldBlk env base old
    let r := (gvcstBlkBuild env base old ctn cse).2
    r.blk.bsiz = blkSegCnt array ∧ r.blk.levl = cse.level ∧ r.blk.longBlkId = cse.longBlkId ∧
      (∀ i, blkHdrSize ≤ i → i < r.blk.bsiz →
        r.blk.byte i =
          let link := offChainBytes cse.longBlkId env.filler cse.index cse.nextOff
          if env.dollarTlevel = true ∧ cse.insOff ≠ 0 ∧ cse.insOff ≤ i ∧ i < cse.insOff + link.length then link.getD (i - cse.insOff) 0
          else (segBytes b₀ array).getD (i - blkHdrSize) 0) ∧
      ∀ pre post, movedSegs (cse.firstCopy || base.isNone) array = pre ++ post →
        if cse.forwardProcess then
          Intact old b₀ (forwardCopy old pre (forwardStart (cse.firstCopy || base.isNone) array) (headed env base cse)) post
        else Intact old b₀ (backwardCopy old post.reverse (blkSegCnt array) (headed env base cse)) pre := by
  intro array b₀ r
  have hmoved := moved_segs env harr hold
  have hlen : (segBytes b₀ array).length = blkSegCnt array - blkHdrSize := by
    rw [segBytes_length b₀ array]
    omega
  have hbyte : ∀ i, blkHdrSize ≤ i → i < blkSegCnt array →
      overwrite (headed env base cse).byte blkHdrSize (segBytes b₀ array) i = (segBytes b₀ array).getD (i - blkHdrSize) 0 :=
    fun i h₁ h₂ => if_pos ⟨h₁, by omega⟩
  have hr : r.blk = if env.dollarTlevel = true ∧ cse.insOff ≠ 0 then
      { headed env base cse with
        byte := overwrite (overwrite (headed env base cse).byte blkHdrSize (segBytes b₀ array)) cse.insOff
          (offChainBytes cse.longBlkId env.filler cse.index cse.nextOff) }
      else { headed env base cse with byte := overwrite (headed env base cse).byte blkHdrSize (segBytes b₀ array) } := by
    simp only [r, gvcstBlkBuild, hmoved.pass_eq]
    split <;> rfl
  have hsiz : r.blk.bsiz = blkSegCnt array := by rw [hr]; split <;> rfl
  refine ⟨hsiz, by rw [hr]; split <;> rfl, by rw [hr]; split <;> rfl, fun i h₁ h₂ => ?_, fun pre post hs => ?_⟩
  · rw [hsiz] at h₂
    rw [hr]
    split
    · next htp =>
      simp only [htp.1, htp.2, ne_eq, not_false_eq_true, true_and]
      by_cases hi : cse.insOff ≤ i ∧ i < cse.insOff + (offChainBytes cse.longBlkId env.filler cse.index cse.nextOff).length
      · rw [if_pos hi]
        exact if_pos hi
      · rw [if_neg hi, ← hbyte i h₁ h₂]
        exact if_neg hi
    · next htp =>
      rw [if_neg fun h => htp ⟨h.1, h.2.1⟩]
      exact hbyte i h₁ h₂
  · rw [hs] at hmoved
    split
    · next hfw => exact forwardCopy_intact hmoved.intact fun ho => hmoved.left ho hfw
    · next hfw =>
      have hends := hmoved.ends
      rw [hends]
      exact backwardCopy_intact hmoved.intact fun ho => hmoved.right ho (by simpa using hfw)

end Build

/-- A record inserted before the last one of a leaf. -/
def insertElem : CwElem where
  updAddr := insertSegs (some 4) [[7, 0, 0, 0], [65, 0, 0]] (some (20, 4))
  longBlkId := false
  level := 0
  forwardProcess := false
  firstCopy := false
  firstOff := 0
  insOff := 0
  nextOff := 0
  index := 0

/-- A buffer with a block of eight bytes. -/
def eightBytes : BlkBuf := ⟨⟨false, 0, 24, fun i => UInt8.ofNat i⟩, 3⟩

theorem gvcstBlkBuild_segments_insert :
    let r := (gvcstBlkBuild ⟨false, 5, eightBytes, 0⟩ (some eightBytes) none 5 insertElem).2
    r.blk.bsiz = 31 ∧ r.blk.byte 19 = 19 ∧ r.blk.byte 24 = 65 ∧ r.blk.byte 30 = 23 := by
  intro r
  have harr : CallerArray insertElem.forwardProcess insertElem.firstCopy insertElem.updAddr :=
    callerArray_insert (fun _ => rfl) (by simp [blkHdrSize]) (by intro h; cases h)
  obtain ⟨hsiz, -, -, hbyte, -⟩ :=
    gvcstBlkBuild_segments ⟨false, 5, eightBytes, 0⟩ (some eightBytes) none 5 insertElem (fun _ => harr) (by intros; rename_i h; cases h)
  have hcnt : blkSegCnt insertElem.updAddr = 31 := by decide
  rw [hcnt] at hsiz
  refine ⟨hsiz, ?_, ?_, ?_⟩
  · exact (hbyte 19 (by decide) (by rw [hsiz]; decide)).trans (by decide)
  · exact (hbyte 24 (by decide) (by rw [hsiz]; decide)).trans (by decide)
  · exact (hbyte 30 (by decide) (by rw [hsiz]; decide)).trans (by decide)

/-- A new root in a transaction, with the link to a new block at the place of the block number. -/
def linkElem : CwElem where
  updAddr := insertSegs none [[12, 0, 0, 0], [0, 0, 0, 0, 0, 0, 0, 0]] none
  longBlkId := true
  level := 1
  forwardProcess := false
  firstCopy := true
  firstOff := 0
  insOff := 20
  nextOff := 0
  index := 1

/-- The link is not among the segments. -/
theorem gvcstBlkBuild_link :
    ¬ ∀ (env : BuildEnv) (base : Option BlkBuf) (old : Option GdsBlk) (ctn : Nat) (cse : CwElem),
      CallerArray cse.forwardProcess cse.firstCopy cse.updAddr → (old.isSome = true → cse.firstCopy = true ∨ base = none) →
      ∀ i, blkHdrSize ≤ i → i < blkSegCnt cse.updAddr →
        (gvcstBlkBuild env base old ctn cse).2.blk.byte i = (segBytes (oldBlk env base old) cse.updAddr).getD (i - blkHdrSize) 0 := by
  intro h
  have hbad := h ⟨true, 5, eightBytes, 0⟩ none none 0 linkElem (callerArray_insert nofun nofun fun _ => nofun) nofun 27
    (by decide) (by decide)
  revert hbad
  decide

/-- Where no link is written, the array of a caller makes in place the block that is built of its segments. -/
theorem gvcstBlkBuild_eq_buildBlk (benv : BuildEnv) (buf : BlkBuf) (ctn : Nat) {cse : CwElem}
    (harr : CallerArray cse.forwardProcess cse.firstCopy cse.updAddr) (hlong : cse.longBlkId = buf.blk.longBlkId) (hins : cse.insOff = 0) :
    (gvcstBlkBuild benv (some buf) none ctn cse).2.blk = buildBlk buf.blk cse.level cse.updAddr := by
  have hmoved : Moved cse.forwardProcess none (oldBlk benv (some buf) none) (headed benv (some buf) cse) cse.updAddr
      (movedSegs (cse.firstCopy || (some buf).isNone) cse.updAddr) (forwardStart (cse.firstCopy || (some buf).isNone) cse.updAddr) :=
    moved_segs benv (fun _ => harr) nofun
  have hbuild : (gvcstBlkBuild benv (some buf) none ctn cse).2.blk = { headed benv (some buf) cse with
      byte := overwrite (headed benv (some buf) cse).byte blkHdrSize (segBytes (oldBlk benv (some buf) none) cse.updAddr) } := by
    simp only [gvcstBlkBuild, hmoved.pass_eq, hins, ne_eq, not_true_eq_false, and_false, if_false]
  rw [hbuild, show (headed benv (some buf) cse).byte = buf.blk.byte from rfl, show oldBlk benv (some buf) none = buf.blk from rfl,
    overwrite_eq_buildBlk _ cse.level]
  simp only [headed, buildBlk, hlong, Option.getD_some]

section Kill

variable {env : KillEnv} {b : GdsBlk} {searchKey : List UInt8} {low high : SrchRec} {rightExtra : Bool} {before gone rest : List Entry}

/-- The array of `gvcst_kill_blk` makes in place the block that is built of its segments, also when the chain in the buffer has been
repaired. -/
theorem gvcstBlkBuild_kill (h : Left b searchKey low high rightExtra before gone rest) (benv : BuildEnv) (buf : BlkBuf) (ctn : Nat)
    (cse : CwElem) (hsegs : cse.updAddr = killSegs env b searchKey low high rightExtra (blkEnd before) (blkEnd (before ++ gone)))
    (hfirst : cse.firstCopy = killFirstCopy (leftSegs env b low.offset (blkEnd before) (blkEnd (before ++ gone))))
    (hforward : cse.forwardProcess = true) (hlong : cse.longBlkId = buf.blk.longBlkId) (hins : cse.insOff = 0) :
    (gvcstBlkBuild benv (some buf) none ctn cse).2.blk = buildBlk buf.blk cse.level cse.updAddr := by
  have harr : CallerArray cse.forwardProcess cse.firstCopy cse.updAddr := by
    rw [hforward, hfirst, hsegs]
    exact h.callerArray env
  exact gvcstBlkBuild_eq_buildBlk benv buf ctn harr hlong hins

end Kill

end Gtm
