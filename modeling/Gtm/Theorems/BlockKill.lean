import Gtm.Lemmas.KillOutcome

/-!
# Killing records of a block

A kill deletes from a block exactly the records of its range. Those outside it are all there in the rebuilt block, in their order
and with exact compression counts; an index block ends with a star-key record again. A block of which nothing is left is reported,
unless it is the root, which then starts an empty tree. Inside a transaction the rebuilt block has the chain of the new blocks that
are left.
-/

namespace Gtm

open CommonPrefix

theorem Relinks.starLast {es es' : List Entry} {ms : List Bool} (h : Relinks es ms es') : Relinks (starLast es) ms (starLast es') := by
  induction es generalizing ms es' with
  | nil =>
    match ms, es', h with
    | [], [], _ => trivial
  | cons e es ih =>
    match ms, es', h with
    | m :: ms, e' :: es', h =>
      cases es with
      | nil =>
        match ms, es', h.2 with
        | [], [], _ => exact ⟨⟨rfl, h.1.2⟩, trivial⟩
      | cons e₁ es =>
        match ms, es', h.2, ih h.2 with
        | m₁ :: ms, e₁' :: es', _, hrest => exact ⟨h.1, hrest⟩

theorem Relinks.closeBlk {es es' : List Entry} {ms : List Bool} (h : Relinks es ms es') (level0 : Bool) :
    Relinks (closeBlk level0 es) ms (closeBlk level0 es') := by
  cases level0 with
  | true => exact h
  | false => exact h.starLast

/-- The root of an empty tree: a star-key record for the new data block. -/
theorem emptyRoot_wf (env : KillEnv) (b : GdsBlk) :
    WfBlk (buildBlk b 1 [.lit (recHdr env (bstarRecSize b.longBlkId) 0), .lit (List.replicate (sizeofBlkId b.longBlkId) 0)])
      [⟨none, List.replicate (sizeofBlkId b.longBlkId) 0⟩] := by
  have hsmall : bstarRecSize b.longBlkId < 65536 := by
    cases b.longBlkId <;> decide
  obtain ⟨h1, h2, h3⟩ := recHdr_spec env hsmall (Nat.zero_le 1020)
  refine ⟨buildBlk_laid ⟨_, [], h1, ?_, h2.trans ?_, h3, rfl⟩, ⟨rfl, rfl, List.length_replicate⟩, nofun⟩
  · simp [segBytes, Seg.bytes, Entry.data, Entry.keyBytes]
  · simp [Entry.size, Entry.data, Entry.keyBytes, bstarRecSize]

/-- A call of a kill, with what it leaves. -/
theorem KillCall.leaves {b : GdsBlk} {es : List Entry} {k : GvKey} {doSubtree killingChunks : Bool} {searchKey : List UInt8}
    {low high : SrchRec} {rightExtra : Bool} (h : WfBlk b es) (hkey : isKey k.bytes = true)
    (hchunks : doSubtree = false → killingChunks = true → ChunksBelow k es)
    (hcall : KillCall b k.bytes (killAltkey k doSubtree killingChunks) searchKey low high rightExtra) :
    ∃ before gone rest, es = before ++ gone ++ rest ∧ Left b searchKey low high rightExtra before gone rest := by
  obtain ⟨hle, hclose⟩ := killAltkey_closer hkey h.contents doSubtree killingChunks hchunks
  obtain ⟨before, range, behind, rfl, hcut, hextra⟩ := hcall.cut h hle hclose
  have hsplit : before ++ range ++ behind = before ++ (range ++ behind.take (extra rightExtra)) ++ behind.drop (extra rightExtra) := by
    simp
  exact ⟨before, range ++ behind.take (extra rightExtra), behind.drop (extra rightExtra), hsplit, hsplit ▸ h,
    range, behind, rfl, rfl, hextra, hcut⟩

theorem split_marks {α β : Type} {l₁ l₂ l₃ : List α} {m : List β} (h : m.length = (l₁ ++ l₂ ++ l₃).length) :
    ∃ m₁ m₂ m₃, m = m₁ ++ m₂ ++ m₃ ∧ m₁.length = l₁.length ∧ m₂.length = l₂.length ∧ m₃.length = l₃.length := by
  rw [List.length_append, List.length_append] at h
  refine ⟨m.take l₁.length, (m.drop l₁.length).take l₂.length, (m.drop l₁.length).drop l₂.length, ?_, ?_, ?_, ?_⟩
  · rw [List.append_assoc, List.take_append_drop, List.take_append_drop]
  all_goals simp; omega

section Kill

variable {env : KillEnv} {b : GdsBlk} {es : List Entry} {k : GvKey} {doSubtree killingChunks : Bool} {searchKey : List UInt8}
  {low high : SrchRec} {rightExtra : Bool} {marks : List Bool} {firstOff : Nat}

/-- What a call of a kill does, by the records of the range and those that are left. -/
theorem KillCall.outcome (hcall : KillCall b k.bytes (killAltkey k doSubtree killingChunks) searchKey low high rightExtra)
    (h : WfBlk b es) (hb : b.bsiz ≤ env.blkSize) (hmax : env.blkSize ≤ maxDbBlkSize) (hkey : isKey k.bytes = true)
    (hchunks : doSubtree = false → killingChunks = true → ChunksBelow k es) (htp : TpBlock env b es marks firstOff) :
    ∃ before gone rest mL mR, killed low high rightExtra es es = gone ∧ outside low high rightExtra es es = before ++ rest ∧
      outside low high rightExtra es marks = mL ++ mR ∧ mR.length = rest.length ∧
      let children := if b.levl ≠ 0 then gone.map (Entry.child b.longBlkId) else []
      (gone = [] → gvcstKillBlk env b searchKey low high rightExtra firstOff = ⟨.normal, [], none⟩) ∧
      (gone ≠ [] → before ++ rest = [] → gvcstKillBlk env b searchKey low high rightExtra firstOff = if env.isRoot = true then
          ⟨.normal, children, some (.root (buildBlk b 1
            [.lit (recHdr env (bstarRecSize b.longBlkId) 0), .lit (List.replicate (sizeofBlkId b.longBlkId) 0)]) 0)⟩
        else ⟨.deleteParent, [], none⟩) ∧
      (gone ≠ [] → before ++ rest ≠ [] → ∃ src segs before' firstCopy firstOff',
        gvcstKillBlk env b searchKey low high rightExtra firstOff =
          ⟨.normal, children, some (.blk (buildBlk src b.levl segs) firstCopy firstOff')⟩ ∧
        Relinks before mL before' ∧
        WfBlk (buildBlk src b.levl segs) (closeBlk (decide (b.levl = 0)) (before' ++ rest)) ∧
        (env.dollarTlevel = false ∨ firstOff = 0 → before' = before) ∧
        (env.dollarTlevel = true → Chain (buildBlk src b.levl segs) firstOff'
          (slots (sizeofBlkId b.longBlkId) blkHdrSize [] (closeBlk (decide (b.levl = 0)) (before' ++ rest)) (mL ++ mR)))) := by
  obtain ⟨before, gone, rest, rfl, hleft⟩ := hcall.leaves h hkey hchunks
  obtain ⟨mL, mG, mR, rfl, hL, hG, hR⟩ := split_marks htp.marked
  obtain ⟨hkilled, houtside⟩ : killed low high rightExtra (before ++ gone ++ rest) (before ++ gone ++ rest) = gone ∧
    outside low high rightExtra (before ++ gone ++ rest) (before ++ gone ++ rest) = before ++ rest := hleft.split rfl rfl rfl
  have heq := gvcstKillBlk_checked hleft htp hb
  have hmax' : env.blkSize < 65536 := by
    rw [maxDbBlkSize] at hmax
    omega
  refine ⟨before, gone, rest, mL, mR, hkilled, houtside, (hleft.split hL hG hR).2, hR, fun hg => ?_, fun hg hl => ?_, fun hg hl => ?_⟩
  · rw [heq, if_pos hg]
  · rw [heq, if_neg hg, if_pos hl]
  · obtain ⟨src, segs, before', firstCopy, firstOff', h1, -, hrest⟩ :=
      killRebuild_eq hleft htp hb hmax' hl hL hG hR (if b.levl ≠ 0 then gone.map (Entry.child b.longBlkId) else [])
    rw [heq, if_neg hg, if_neg hl]
    exact ⟨src, segs, before', firstCopy, firstOff', h1, hrest⟩

/-- `gvcst_kill_blk` deletes the records of the range and keeps the others: with the keys and the values they had, the links of the
chain apart, and behind them a star-key record in an index block. It reports the block empty where no record is left of one that
is not the root. -/
theorem gvcstKillBlk_survivors (k : GvKey) (doSubtree killingChunks : Bool) (h : WfBlk b es) (hb : b.bsiz ≤ env.blkSize)
    (hmax : env.blkSize ≤ maxDbBlkSize) (hkey : isKey k.bytes = true) (hchunks : doSubtree = false → killingChunks = true → ChunksBelow k es)
    (hcall : KillCall b k.bytes (killAltkey k doSubtree killingChunks) searchKey low high rightExtra)
    (htp : TpBlock env b es marks firstOff) :
    let out := gvcstKillBlk env b searchKey low high rightExtra firstOff
    let gone := killed low high rightExtra es es
    let left := outside low high rightExtra es es
    let children := if b.levl ≠ 0 then gone.map (Entry.child b.longBlkId) else []
    (gone = [] → out = ⟨.normal, [], none⟩) ∧
    (gone ≠ [] → left = [] → env.isRoot = false → out = ⟨.deleteParent, [], none⟩) ∧
    (gone ≠ [] → left = [] → env.isRoot = true → ∃ root, out = ⟨.normal, children, some (.root root 0)⟩ ∧ root.levl = 1 ∧
      WfBlk root [⟨none, List.replicate (sizeofBlkId b.longBlkId) 0⟩]) ∧
    (gone ≠ [] → left ≠ [] → ∃ src segs firstCopy firstOff' new,
      out = ⟨.normal, children, some (.blk (buildBlk src b.levl segs) firstCopy firstOff')⟩ ∧
      (buildBlk src b.levl segs).bsiz = blkHdrSize + (segs.map Seg.len).sum ∧
      WfBlk (buildBlk src b.levl segs) new ∧
      Relinks (closeBlk (decide (b.levl = 0)) left) (outside low high rightExtra es marks) new ∧
      (env.dollarTlevel = false ∨ firstOff = 0 → new = closeBlk (decide (b.levl = 0)) left)) := by
  obtain ⟨before, gone, rest, mL, mR, hgone, hleft, hmarks, hR, hnone, hempty, hsome⟩ := hcall.outcome h hb hmax hkey hchunks htp
  simp only [hgone, hleft, hmarks]
  refine ⟨hnone, fun hg hl hr => ?_, fun hg hl hr => ?_, fun hg hl => ?_⟩
  · rw [hempty hg hl, if_neg (by simp [hr])]
  · rw [hempty hg hl, if_pos hr]
    exact ⟨_, rfl, rfl, emptyRoot_wf env b⟩
  · obtain ⟨src, segs, before', firstCopy, firstOff', h1, hre, hwf, hsame, -⟩ := hsome hg hl
    refine ⟨src, segs, firstCopy, firstOff', _, h1, rfl, hwf, (hre.append (.refl hR)).closeBlk _, fun hc => ?_⟩
    rw [hsame hc]

end Kill

/-- What the process has for a kill in small blocks. -/
def smallKill (dollarTlevel isRoot : Bool) : KillEnv := ⟨512, dollarTlevel, 3, 4, isRoot, 0⟩

/-- The leaf with `^A`, `^A(1)` and `^A(1,1)`. -/
def leafOfThree : GdsBlk :=
  ⟨true, 0, 42, fun i => [8, 0, 0, 0, 65, 0, 0, 49, 9, 0, 2, 0, 191, 17, 0, 0, 120, 9, 0, 5, 0, 191, 17, 0, 0, 121].getD (i - 16) 0⟩

/-- The entries of the leaf. -/
def threeEntries : List Entry :=
  [⟨some [65, 0, 0], [49]⟩, ⟨some [65, 0, 191, 17, 0, 0], [120]⟩, ⟨some [65, 0, 191, 17, 0, 191, 17, 0, 0], [121]⟩]

theorem leafOfThree_wf : WfBlk leafOfThree threeEntries := ⟨by decide, by decide, fun _ => by decide⟩

/-- Killing the node `^A(1)`, of which `^A(1,1)` has shared five bytes. -/
theorem gvcstKillBlk_survivors_leaf :
    KillCall leafOfThree [65, 0, 191, 17, 0, 0] [65, 0, 191, 17, 0, 1, 0, 0] [65, 0, 191, 17, 0, 0] ⟨16, 2⟩ ⟨33, 5⟩ false ∧
      ∃ new firstCopy firstOff, gvcstKillBlk (smallKill false false) leafOfThree [65, 0, 191, 17, 0, 0] ⟨16, 2⟩ ⟨33, 5⟩ false 0 =
          ⟨.normal, [], some (.blk new firstCopy firstOff)⟩ ∧
        WfBlk new [⟨some [65, 0, 0], [49]⟩, ⟨some [65, 0, 191, 17, 0, 191, 17, 0, 0], [121]⟩] := by
  have hcall : KillCall leafOfThree [65, 0, 191, 17, 0, 0] [65, 0, 191, 17, 0, 1, 0, 0] [65, 0, 191, 17, 0, 0] ⟨16, 2⟩ ⟨33, 5⟩ false := by
    have hlow : (naiveSearch leafOfThree [65, 0, 191, 17, 0, 0]).prevRec = ⟨16, 2⟩ := by decide
    have hhigh : (naiveSearch leafOfThree [65, 0, 191, 17, 0, 1, 0, 0]).currRec = ⟨33, 5⟩ := by decide
    rw [← hlow, ← hhigh]
    exact .both true false (fun _ => ⟨rfl, rfl⟩) nofun
  have htp : TpBlock (smallKill false false) leafOfThree threeEntries [false, false, false] 0 :=
    ⟨by decide, fun h => absurd rfl h, rfl, nofun, fun _ => ⟨rfl, by simp⟩⟩
  have h := gvcstKillBlk_survivors ⟨[65, 0, 191, 17, 0], 3, 255⟩ false false leafOfThree_wf (by decide) (by decide)
    (by decide) (fun _ => nofun) hcall htp
  obtain ⟨src, segs, firstCopy, firstOff', new, hout, -, hwf, -, hnew⟩ := h.2.2.2 (by decide) (by decide)
  rw [hnew (.inl rfl)] at hwf
  exact ⟨hcall, _, firstCopy, firstOff', hout, hwf⟩

/-- The root with the one child of a tree of one data block. -/
def rootOfOne : GdsBlk := ⟨true, 1, 28, fun i => [12, 0, 0, 0, 5, 0, 0, 0, 0, 0, 0, 0].getD (i - 16) 0⟩

/-- Killing all of `^A` leaves no record of the root, which is rebuilt with a star-key record for a new block and not reported
empty. -/
theorem gvcstKillBlk_keeps_root :
    WfBlk rootOfOne [⟨none, [5, 0, 0, 0, 0, 0, 0, 0]⟩] ∧
      KillCall rootOfOne [65, 0, 0] (killAltkey ⟨[65, 0], 0, 255⟩ true false) [65, 0, 0] ⟨0, 0⟩ ⟨16, 0⟩ true ∧
      killed ⟨0, 0⟩ ⟨16, 0⟩ true [⟨none, [5, 0, 0, 0, 0, 0, 0, 0]⟩] [0] = [0] ∧
      outside ⟨0, 0⟩ ⟨16, 0⟩ true [⟨none, [5, 0, 0, 0, 0, 0, 0, 0]⟩] [0] = [] ∧
      (gvcstKillBlk (smallKill false true) rootOfOne [65, 0, 0] ⟨0, 0⟩ ⟨16, 0⟩ true 0).sc = .normal ∧
      ∃ root, (gvcstKillBlk (smallKill false true) rootOfOne [65, 0, 0] ⟨0, 0⟩ ⟨16, 0⟩ true 0).write = some (.root root 0) ∧
        root.bytes 16 (root.bsiz - 16) = [12, 0, 0, 0, 0, 0, 0, 0, 0, 0, 0, 0] := by
  refine ⟨⟨by decide, by decide, nofun⟩, ?_, by decide, by decide, by decide, _, rfl, by decide⟩
  have hlow : (naiveSearch rootOfOne [65, 0, 0]).prevRec = ⟨0, 0⟩ := by decide
  have hhigh : (naiveSearch rootOfOne (killAltkey ⟨[65, 0], 0, 255⟩ true false)).currRec = ⟨16, 0⟩ := by decide
  rw [← hlow, ← hhigh]
  exact .both true true nofun nofun

section Kill

variable {env : KillEnv} {b : GdsBlk} {es : List Entry} {searchKey : List UInt8} {low high : SrchRec} {rightExtra : Bool}
  {marks : List Bool} {firstOff : Nat}

/-- Inside a transaction the chain of the rebuilt block visits exactly the links of the chain that are left, at their new places. -/
theorem gvcstKillBlk_chain (k : GvKey) (doSubtree killingChunks : Bool) (h : WfBlk b es) (hb : b.bsiz ≤ env.blkSize)
    (hmax : env.blkSize ≤ maxDbBlkSize) (hkey : isKey k.bytes = true) (hchunks : doSubtree = false → killingChunks = true → ChunksBelow k es)
    (hcall : KillCall b k.bytes (killAltkey k doSubtree killingChunks) searchKey low high rightExtra)
    (htl : env.dollarTlevel = true) (htp : TpBlock env b es marks firstOff) :
    let out := gvcstKillBlk env b searchKey low high rightExtra firstOff
    let gone := killed low high rightExtra es es
    let left := outside low high rightExtra es es
    (gone = [] → out.write = none) ∧
    (gone ≠ [] → left = [] → out.write = none ∨ ∃ root, out.write = some (.root root 0)) ∧
    (gone ≠ [] → left ≠ [] → ∃ new firstCopy firstOff' ns, out.write = some (.blk new firstCopy firstOff') ∧ WfBlk new ns ∧
      Relinks (closeBlk (decide (b.levl = 0)) left) (outside low high rightExtra es marks) ns ∧
      Chain new firstOff' (slots (sizeofBlkId b.longBlkId) blkHdrSize [] ns (outside low high rightExtra es marks))) := by
  obtain ⟨before, gone, rest, mL, mR, hgone, hleft, hmarks, hR, hnone, hempty, hsome⟩ := hcall.outcome h hb hmax hkey hchunks htp
  simp only [hgone, hleft, hmarks]
  refine ⟨fun hg => by rw [hnone hg], fun hg hl => ?_, fun hg hl => ?_⟩
  · rw [hempty hg hl]
    split
    · exact .inr ⟨_, rfl⟩
    · exact .inl rfl
  · obtain ⟨src, segs, before', firstCopy, firstOff', h1, hre, hwf, -, hchain⟩ := hsome hg hl
    exact ⟨_, firstCopy, firstOff', _, by rw [h1], hwf, (hre.append (.refl hR)).closeBlk _, hchain htl⟩

end Kill

/-- A private index block with a new block under `^A(1)`, one under `^A(2)` and one behind. -/
def indexOfNew : GdsBlk :=
  ⟨true, 1, 61, fun i => [18, 0, 0, 0, 65, 0, 191, 17, 0, 0, 15, 0, 0, 0, 0, 0, 0, 128, 15, 0, 3, 0, 33, 0, 0, 12, 0, 1, 0, 0, 0, 0, 128,
    12, 0, 0, 0, 0, 0, 2, 0, 0, 0, 0, 128].getD (i - 16) 0⟩

/-- The entries of the index block. -/
def newEntries : List Entry :=
  [⟨some [65, 0, 191, 17, 0, 0], [15, 0, 0, 0, 0, 0, 0, 128]⟩, ⟨some [65, 0, 191, 33, 0, 0], [12, 0, 1, 0, 0, 0, 0, 128]⟩,
    ⟨none, [0, 0, 2, 0, 0, 0, 0, 128]⟩]

/-- Killing `^A(2)`, with the block under it: the link before it leads to the star-key record. -/
theorem gvcstKillBlk_chain_index :
    Chain indexOfNew 26 [26, 41, 53] ∧ ∃ new firstCopy,
      (gvcstKillBlk (smallKill true true) indexOfNew [65, 0, 191, 33, 0, 0] ⟨16, 3⟩ ⟨49, 0⟩ false 26).write =
        some (.blk new firstCopy 26) ∧ Chain new 26 [26, 38] := by
  have hwf : WfBlk indexOfNew newEntries := ⟨by decide, by decide, by intro h; cases h⟩
  have hchain : Chain indexOfNew 26 [26, 41, 53] := by
    refine ⟨rfl, ?_⟩
    simp only [Links]
    decide
  have hcall : KillCall indexOfNew [65, 0, 191, 33, 0, 0] [65, 0, 191, 33, 1, 0, 0] [65, 0, 191, 33, 0, 0] ⟨16, 3⟩ ⟨49, 0⟩ false := by
    have hlow : (naiveSearch indexOfNew [65, 0, 191, 33, 0, 0]).prevRec = ⟨16, 3⟩ := by decide
    have hhigh : (naiveSearch indexOfNew [65, 0, 191, 33, 1, 0, 0]).currRec = ⟨49, 0⟩ := by decide
    rw [← hlow, ← hhigh]
    exact .both true false (by intros; rename_i h; cases h) (by intros; rename_i h; cases h)
  have hslots : slots 8 blkHdrSize [] newEntries [true, true, true] = [26, 41, 53] := by decide
  have htp : TpBlock (smallKill true true) indexOfNew newEntries [true, true, true] 26 :=
    ⟨by decide, fun _ => by decide, rfl, fun _ => hslots ▸ hchain, (by intros; rename_i h; cases h)⟩
  have h := gvcstKillBlk_chain ⟨[65, 0, 191, 33, 0], 3, 255⟩ true false hwf (by decide) (by decide) (by decide)
    (by intros; rename_i h; cases h) hcall rfl htp
  obtain ⟨new, firstCopy, firstOff', ns, hout, -, hre, hnew⟩ := h.2.2 (by decide) (by decide)
  rw [hre.slots_eq] at hnew
  have hplaces : slots (sizeofBlkId indexOfNew.longBlkId) blkHdrSize []
      (closeBlk (decide (indexOfNew.levl = 0)) (outside ⟨16, 3⟩ ⟨49, 0⟩ false newEntries newEntries))
      (outside ⟨16, 3⟩ ⟨49, 0⟩ false newEntries [true, true, true]) = [26, 38] := by decide
  rw [hplaces] at hnew
  obtain rfl : firstOff' = 26 := hnew.1
  exact ⟨hchain, new, firstCopy, hout, hnew⟩

end Gtm
