import LibClamav.BmBuckets

namespace LibClamav.Bm

open List

/-!
# What the Boyer-Moore scan finds

`cli_bm_scanbuff` looks at every block of the buffer, and in the chain of the
block at every pattern with the right first byte, with one exception: a chain
whose head has the count 1 is passed over when the first byte of the head does
not fit.  The count has 16 bits, so this also happens to chains of 65537
patterns, and then the other patterns of the chain are hidden.
-/

variable {Stored : BmPatt → α → Prop} {h : Nat}

/-- A signature occurs at a position, at the end of the buffer if it has to. -/
def BmSig.OccursAt (sig : BmSig) (buffer : List UInt8) (start : Nat) : Prop :=
  sig.bytes <+: buffer.drop start ∧
    (sig.boundaryEol = true → start + sig.bytes.length = buffer.length)

/-- A signature occurs in a buffer. -/
def BmSig.Occurs
    (sig : BmSig)
    (buffer : List UInt8) :
    Prop := ∃ start, sig.OccursAt buffer start

/-- The loop compares all bytes. -/
theorem compareLoop_full
    (buffer pt : List UInt8)
    (start total fuel : Nat)
    (j)
    (enough : total ≤ j + fuel)
    (inside : j ≤ total) :
    compareLoop buffer pt start total fuel j = (true, total) ↔ ∀ k, j ≤ k → k < total →
        start + k < buffer.length ∧ byteAt buffer (start + k) = byteAt pt k := by
  induction fuel generalizing j with
  | zero =>
    obtain rfl : j = total := by omega
    simp only [compareLoop, true_iff]
    exact fun k above below => absurd below (not_lt.mpr above)
  | succ fuel ih =>
    rw [compareLoop]
    split_ifs with goesOn same
    · rw [ih (j + 1) (by omega) goesOn.1]
      refine ⟨fun later k above below => ?_, fun all k above => all k (by omega)⟩
      rcases eq_or_lt_of_le above with rfl | behind
      · exact ⟨goesOn.2, same⟩
      · exact later k behind below
    · exact iff_of_false (by simp) fun all => same (all j le_rfl goesOn.1).2
    · constructor
      · rintro ⟨⟩ k above below
        exact absurd below (not_lt.mpr above)
      · intro all
        have atEnd : j = total := by
          by_contra before
          exact goesOn ⟨by omega, (all j le_rfl (by omega)).1⟩
        rw [atEnd]

variable {buffer : List UInt8} {i : Nat} {p : BmPatt}

theorem quickCheck_of_same
    (positive : 0 < p.length)
    (same : ∀ k < p.length, byteAt buffer (i + k) = byteAt p.pattern k) :
    quickCheck buffer i p = true := by
  have inRange : (min p.length (buffer.length - i) - 1) % 2 ^ 16 < p.length := by
    omega
  unfold quickCheck
  generalize (min p.length (buffer.length - i) - 1) % 2 ^ 16 = idxchk at *
  have half : idxchk / 2 < p.length := by omega
  simp [same idxchk inRange, same (idxchk / 2) half]

theorem Holds.bytes
    {bytes : List UInt8}
    (holds : Holds p bytes) :
    (if p.prefixLength ≠ 0 then p.prefixBytes else p.pattern) = bytes := by
  split
  · rename_i hasPrefix
    exact holds.whole hasPrefix
  · rename_i noPrefix
    rw [holds.pattern, Decidable.of_not_not noPrefix, drop_zero]

/-- The tests of a pattern that look at the buffer only. -/
def textMatches (buffer : List UInt8) (i : Nat) (p : BmPatt) : Bool :=
  let start := i - p.prefixLength
  let pt := if p.prefixLength ≠ 0 then p.prefixBytes else p.pattern
  let total := p.length + p.prefixLength
  let (found, j) := compareLoop buffer pt start total total 0
  !decide ((i + p.length) % 2 ^ 32 > buffer.length ∨ p.prefixLength > i) &&
    (quickCheck buffer i p && (!decide (found ∧ p.boundaryEol ∧ start + j ≠ buffer.length) &&
        decide (found ∧ total = j)))

/-- What the tests of a pattern look at. -/
theorem textMatches_iff
    {bytes : List UInt8}
    (holds : Holds p bytes) :
    textMatches buffer i p = true ↔
      p.prefixLength ≤ i ∧ bytes <+: buffer.drop (i - p.prefixLength) ∧ (p.boundaryEol = true →
          i - p.prefixLength + bytes.length = buffer.length) := by
  have total : p.length + p.prefixLength = bytes.length := by
    rw [add_comm]
    exact holds.split
  have block := holds.block
  unfold bmMinLength at block
  have positive : 0 < bytes.length := by omega
  have full := compareLoop_full buffer bytes (i - p.prefixLength)
    bytes.length bytes.length 0 (by omega) (Nat.zero_le _)
  unfold textMatches
  rw [isPrefix_drop_iff positive]
  simp only [holds.bytes, total]
  generalize compareLoop buffer bytes (i - p.prefixLength)
    bytes.length bytes.length 0 = result at full ⊢
  obtain ⟨found, j⟩ := result
  simp only [Bool.and_eq_true, Bool.not_eq_true', decide_eq_false_iff_not, decide_eq_true_eq]
  constructor
  · rintro ⟨inside, -, atEnd, isFound, isFull⟩
    subst isFound
    subst isFull
    have same := full.mp rfl
    have last := (same (bytes.length - 1) (Nat.zero_le _) (by omega)).1
    refine ⟨by omega, ⟨by omega, fun k inside => (same k (Nat.zero_le k) inside).2⟩, ?_⟩
    · intro eol
      by_contra differs
      exact atEnd ⟨rfl, eol, differs⟩
  · rintro ⟨prefixFits, ⟨fits, same⟩, atEnd⟩
    obtain ⟨isFound, isFull⟩ := Prod.mk.inj
      (full.mpr fun k _ inside => ⟨by omega, same k inside⟩)
    subst isFound
    subst isFull
    refine ⟨?_, ?_, ?_, rfl, rfl⟩
    · have atMost := Nat.mod_le (i + p.length) (2 ^ 32)
      omega
    · refine quickCheck_of_same (by omega) ?_
      intro k inside
      have equal := same (p.prefixLength + k) (by omega)
      have place : i - p.prefixLength + (p.prefixLength + k) = i + k := by omega
      rw [place] at equal
      rw [equal, holds.pattern, byteAt_drop]
    · rintro ⟨-, eol, differs⟩
      exact differs (atEnd eol)

section

variable (file : FileMap)
  (target : Nat)
  (offset : Nat)
  (offdata : Option BmOff)

/-- The offset test of a pattern that stands at an index. -/
def verdict (hit : Nat × BmPatt) (info : TargetInfo) : BmTry × TargetInfo :=
  match offdata with
  | none =>
    if hit.2.offsetMin ≠ offAny then
      offRangeAllows file target offset hit.1 hit.2 info
    else
      (.virus, info)
  | some table =>
    if offTableAllows offset hit.1 (some table) hit.2 then
      (.virus, info)
    else
      (.next, info)

/-- A pattern whose text matches is judged by its offset. -/
theorem bmTryPatt_eq
    (buffer : List UInt8)
    (i : Nat)
    (p : BmPatt)
    (info : TargetInfo) :
    bmTryPatt file target buffer offset i offdata p info =
      if textMatches buffer i p then
        verdict file target offset offdata (i, p) info
      else
        (.next, info) := by
  unfold bmTryPatt textMatches verdict
  cases offdata with
  | none =>
    simp only [offTableAllows, Option.isNone_none]
    grind
  | some table =>
    grind

/-- Judge one match after the other, up to the first one that ends the scan. -/
def judgeAll : List (Nat × BmPatt) → TargetInfo → BmResult × TargetInfo
  | [], info => (.clean, info)
  | hit :: rest, info =>
    match verdict file target offset offdata hit info with
    | (.virus, info) => (.virus hit.2, info)
    | (.error code, info) => (.error code, info)
    | (.next, info) => judgeAll rest info

/-- The hits are judged in their order. -/
theorem judgeAll_append
    (front behind : List (Nat × BmPatt))
    (info : TargetInfo) :
    judgeAll file target offset offdata (front ++ behind) info =
      match judgeAll file target offset offdata front info with
      | (.clean, info) => judgeAll file target offset offdata behind info
      | result => result := by
  induction front generalizing info with
  | nil => rfl
  | cons hit rest ih =>
    rw [cons_append, judgeAll, judgeAll]
    split
    · rfl
    · rfl
    · exact ih _

theorem judgeAll_of_pure
    {good : Nat × BmPatt → Bool}
    (hits : List (Nat × BmPatt))
    (info : TargetInfo)
    (judges : ∀ hit ∈ hits, ∀ info, verdict file target offset offdata hit info =
        (if good hit then .virus else .next, info)) :
    judgeAll file target offset offdata hits info = (match hits.find? good with
        | some hit => .virus hit.2
        | none => .clean, info) := by
  induction hits with
  | nil => rfl
  | cons hit rest ih =>
    rw [judgeAll, judges hit mem_cons_self, find?_cons]
    cases good hit with
    | true => rfl
    | false =>
      exact ih fun other mem => judges other (mem_cons_of_mem _ mem)

/--
The walk along a sorted chain judges the matching patterns with the right first
byte.  Once the group of that byte has been reached, all later first bytes are
at most as large, so the walk may end at the first smaller one.
-/
theorem bmChainLoop_eq
    (buffer : List UInt8)
    (i : Nat)
    (chain : List BmPatt)
    (pchain : Bool)
    (info : TargetInfo)
    (sorted : SortedChain chain)
    (reached : pchain = true → ∀ p ∈ chain, p.pattern0 ≤ byteAt buffer i) :
    bmChainLoop file target buffer offset i offdata pchain chain info =
      judgeAll file target offset offdata ((chain.filter fun p =>
          p.pattern0 == byteAt buffer i && textMatches buffer i p).map fun p => (i, p)) info := by
  induction chain generalizing pchain info with
  | nil =>
    cases pchain <;> rfl
  | cons first rest ih =>
    obtain ⟨firstGreatest, restSorted⟩ := pairwise_cons.mp sorted
    rw [bmChainLoop, filter_cons]
    by_cases sameByte : first.pattern0 = byteAt buffer i
    · have goesOn (info : TargetInfo) := ih true info restSorted fun _ p mem => by
          rw [← sameByte]
          exact firstGreatest p mem
      rw [if_neg (not_not.mpr sameByte), bmTryPatt_eq, sameByte, BEq.rfl, Bool.true_and]
      cases textMatches buffer i first with
      | false => exact goesOn info
      | true =>
        simp only [goesOn]
        rfl
    have isOther := beq_eq_false_iff_ne.mpr sameByte
    rw [if_pos sameByte, isOther, Bool.false_and]
    cases pchain with
    | false =>
      exact ih false info restSorted nofun
    | true =>
      -- everything behind a smaller byte is smaller
      have firstLe := reached rfl first mem_cons_self
      have noneLeft : (rest.filter fun p =>
          p.pattern0 == byteAt buffer i && textMatches buffer i p) = [] := by
        refine filter_eq_nil_iff.mpr ?_
        intro p mem good
        have byte : p.pattern0 = byteAt buffer i := by
          rw [Bool.and_eq_true, beq_iff_eq] at good
          exact good.1
        have laterLe := firstGreatest p mem
        rw [byte] at laterLe
        exact sameByte (UInt8.le_antisymm firstLe laterLe)
      simp only [↓reduceIte, Bool.false_eq_true, noneLeft]
      rfl

end

/-- The matches that the scan considers at one index, in the order of the chain. -/
def hitsAt (root : BmRoot) (buffer : List UInt8) (i : Nat) : List (Nat × BmPatt) :=
  if i + bmMinLength ≤ buffer.length ∧
      skipsChain buffer i (root.bmSuffix (bmHashAt buffer i)) = false then
    ((root.bmSuffix (bmHashAt buffer i)).filter fun p =>
      p.pattern0 == byteAt buffer i && textMatches buffer i p).map fun p => (i, p)
  else
    []

/-- All matches that the scan of a buffer considers without an offset table. -/
def hits (root : BmRoot) (buffer : List UInt8) : List (Nat × BmPatt) :=
  (range buffer.length).flatMap (hitsAt root buffer)

variable {root : BmRoot} {items : List α}

/-- One place of the buffer. -/
theorem bmScanLoop_succ
    (table : Table Stored root items)
    (file : FileMap)
    (buffer : List UInt8)
    (offset fuel i : Nat)
    (offdata : Option BmOff)
    (info : TargetInfo)
    (inside : i + bmMinLength ≤ buffer.length) :
    bmScanLoop root file buffer offset (fuel + 1) i offdata info =
      match judgeAll file root.type offset offdata (hitsAt root buffer i)
          info with
      | (.clean, info) =>
        match bmNext offset i 1 offdata with
        | (none, offdata) => (.clean, offdata)
        | (some next, offdata) =>
          bmScanLoop root file buffer offset fuel next offdata info
      | (result, _) => (result, offdata) := by
  rw [bmScanLoop, if_pos inside]
  unfold hitsAt
  by_cases empty : root.bmSuffix (bmHashAt buffer i) = []
  · have shift : root.bmShift (bmHashAt buffer i) = 1 := by rw [table.shift, if_pos empty]
    simp only [shift, empty, filter_nil, map_nil, ite_self, judgeAll]
    rfl
  have shift : root.bmShift (bmHashAt buffer i) = 0 := by rw [table.shift, if_neg empty]
  simp only [shift, ne_eq, not_true_eq_false, ↓reduceIte]
  by_cases skips : skipsChain buffer i (root.bmSuffix (bmHashAt buffer i)) = true
  · rewrite [if_pos skips, if_neg fun both => Bool.false_ne_true (both.2.symm.trans skips)]
    rfl
  have passes := Bool.eq_false_iff.mpr skips
  simp only [passes, inside, and_self, ↓reduceIte, Bool.false_eq_true]
  rewrite [bmChainLoop_eq file root.type offset offdata buffer i _ false info
    (table.sorted _) (fun impossible => by cases impossible)]
  rfl

/-- All places from one on. -/
theorem bmScanLoop_none
    (table : Table Stored root items)
    (file : FileMap)
    (buffer : List UInt8)
    (offset fuel : Nat)
    (i : Nat)
    (info : TargetInfo)
    (enough : i + fuel = buffer.length) :
    (bmScanLoop root file buffer offset fuel i none info).1 = (judgeAll file root.type offset none
      ((range' i fuel).flatMap (hitsAt root buffer)) info).1 := by
  induction fuel generalizing i info with
  | zero =>
    rfl
  | succ fuel ih =>
    by_cases inside : i + bmMinLength ≤ buffer.length
    · rw [bmScanLoop_succ table file buffer offset fuel i none info inside,
        range'_succ, flatMap_cons, judgeAll_append]
      cases judged : judgeAll file root.type offset none (hitsAt root buffer i) info
        with
      | mk result after =>
        cases result with
        | clean => exact ih (i + 1) after (by omega)
        | virus p | error code => rfl
    · have noHits : (range' i (fuel + 1)).flatMap (hitsAt root buffer) = [] := by
        refine flatMap_eq_nil_iff.mpr ?_
        intro k inRange
        have above := (mem_range'_1.mp inRange).1
        exact if_neg fun ⟨fits, _⟩ => inside (by omega)
      rw [noHits, bmScanLoop, if_neg inside]
      rfl

/-- Without a table every hit of the buffer is judged. -/
theorem cliBmScanbuff_none
    (table : Table Stored root items)
    (file : FileMap)
    (buffer : List UInt8)
    (offset : Nat) :
    (cliBmScanbuff root file buffer offset none).1 =
      (judgeAll file root.type offset none (hits root buffer) {}).1 := by
  unfold cliBmScanbuff
  by_cases tooShort : buffer.length < bmMinLength
  · have noHits : hits root buffer = [] := by
      refine flatMap_eq_nil_iff.mpr ?_
      intro k _
      exact if_neg fun ⟨fits, _⟩ => by omega
    rw [if_pos tooShort, noHits]
    rfl
  · rw [if_neg tooShort, hits, range_eq_range']
    exact bmScanLoop_none table file buffer offset buffer.length 0 {} (zero_add _)

/--
A pattern is hidden when its chain has a length that is 1 in 16 bits and a
head with another first byte.
-/
def Hidden (root : BmRoot) (p : BmPatt) : Prop :=
  (root.bmSuffix (bmHashAt p.pattern 0)).length % 2 ^ 16 = 1 ∧
    ∃ head ∈ (root.bmSuffix (bmHashAt p.pattern 0)).head?, head.pattern0 ≠ p.pattern0

/-- Only a bucket of more than 2^16 patterns hides one. -/
theorem Hidden.length_gt
    (mem : p ∈ root.bmSuffix (bmHashAt p.pattern 0))
    (hidden : Hidden root p) :
    2 ^ 16 < (root.bmSuffix (bmHashAt p.pattern 0)).length := by
  obtain ⟨oneInWord, head, isHead, differs⟩ := hidden
  cases chain : root.bmSuffix (bmHashAt p.pattern 0) with
  | nil =>
    rw [chain] at mem
    cases mem
  | cons first rest =>
    rw [chain] at mem oneInWord isHead
    cases isHead
    have several : rest ≠ [] := by
      rintro rfl
      exact differs (congrArg BmPatt.pattern0 (mem_singleton.mp mem).symm)
    have positive := length_pos_iff.mpr several
    rw [length_cons] at oneInWord ⊢
    omega

/-- A bucket is skipped for a pattern it hides. -/
theorem skipsChain_eq_true_iff
    (table : Table Stored root items)
    (hash : bmHashAt p.pattern 0 = bmHashAt buffer i)
    (byte : p.pattern0 = byteAt buffer i) :
    skipsChain buffer i (root.bmSuffix (bmHashAt buffer i)) = true ↔ Hidden root p := by
  have counted := table.counted (bmHashAt buffer i)
  unfold Hidden
  rw [hash, byte]
  cases chain : root.bmSuffix (bmHashAt buffer i) with
  | nil =>
    simp [skipsChain]
  | cons head rest =>
    rw [chain] at counted
    have headCount := counted head rfl
    simp [skipsChain, headCount]

theorem Holds.block_of_textMatches
    {bytes : List UInt8}
    (holds : Holds p bytes)
    (isMatch : textMatches buffer i p = true) :
    i + p.length ≤ buffer.length ∧ bmHashAt p.pattern 0 = bmHashAt buffer i ∧
      p.pattern0 = byteAt buffer i := by
  obtain ⟨prefixFits, standsThere, -⟩ := (textMatches_iff holds).mp isMatch
  have block := holds.block
  have split := holds.split
  unfold bmMinLength at block
  have positive : 0 < bytes.length := by omega
  obtain ⟨fits, same⟩ := (isPrefix_drop_iff positive).mp standsThere
  have sameByte (k : Nat) (inside : k < p.length) : byteAt p.pattern k = byteAt buffer (i + k) := by
    have place : i + k = i - p.prefixLength + (p.prefixLength + k) := by omega
    rw [holds.pattern, byteAt_drop, place]
    exact (same (p.prefixLength + k) (by omega)).symm
  refine ⟨by omega, ?_, ?_⟩
  · simp only [bmHashAt, zero_add]
    rw [sameByte 0 (by omega), sameByte 1 (by omega), sameByte 2 (by omega), add_zero]
  · rw [holds.pattern0, sameByte 0 (by omega), add_zero]

theorem mem_hitsAt_iff
    {bytes : List UInt8}
    {k : Nat}
    (table : Table Stored root items)
    (holds : Holds p bytes) :
    (k, p) ∈ hitsAt root buffer i ↔
      k = i ∧ p ∈ root.bmSuffix (bmHashAt p.pattern 0) ∧ ¬ Hidden root p ∧
        textMatches buffer i p = true := by
  unfold hitsAt
  constructor
  · intro mem
    split_ifs at mem with guards
    · obtain ⟨q, inGroup, same⟩ := mem_map.mp mem
      cases same
      obtain ⟨inChain, good⟩ := mem_filter.mp inGroup
      rw [Bool.and_eq_true, beq_iff_eq] at good
      obtain ⟨byte, isMatch⟩ := good
      have hash := (table.sound _ p inChain).1
      refine ⟨rfl, ?_, ?_, isMatch⟩
      · rw [hash]
        exact inChain
      · rw [← skipsChain_eq_true_iff table hash byte, guards.2]
        exact Bool.false_ne_true
    · cases mem
  · rintro ⟨rfl, inChain, notHidden, isMatch⟩
    obtain ⟨fits, hash, byte⟩ := holds.block_of_textMatches isMatch
    have block := holds.block
    rw [← skipsChain_eq_true_iff table hash byte, Bool.not_eq_true] at notHidden
    rw [if_pos ⟨by omega, notHidden⟩]
    refine mem_map.mpr ⟨p, mem_filter.mpr ⟨?_, ?_⟩, rfl⟩
    · rw [← hash]
      exact inChain
    · rw [Bool.and_eq_true, beq_iff_eq]
      exact ⟨byte, isMatch⟩

/-- A pattern hits where its bytes stand unless it is hidden. -/
theorem mem_hits_iff
    {bytes : List UInt8}
    (table : Table Stored root items)
    (holds : Holds p bytes) :
    (i, p) ∈ hits root buffer ↔ p ∈ root.bmSuffix (bmHashAt p.pattern 0) ∧ ¬ Hidden root p ∧
        textMatches buffer i p = true := by
  unfold hits
  rw [mem_flatMap]
  constructor
  · rintro ⟨k, -, mem⟩
    obtain ⟨rfl, considered⟩ := (mem_hitsAt_iff table holds).mp mem
    exact considered
  rintro ⟨inChain, notHidden, isMatch⟩
  have fits := (holds.block_of_textMatches isMatch).1
  have block := holds.block
  unfold bmMinLength at block
  refine ⟨i, mem_range.mpr (by omega), ?_⟩
  exact (mem_hitsAt_iff table holds).mpr ⟨rfl, inChain, notHidden, isMatch⟩

theorem mem_bucket_of_mem_hits (mem : (i, p) ∈ hits root buffer) : ∃ h, p ∈ root.bmSuffix h := by
  obtain ⟨k, -, inHits⟩ := mem_flatMap.mp mem
  unfold hitsAt at inHits
  split at inHits
  · obtain ⟨q, inGroup, same⟩ := mem_map.mp inHits
    cases same
    exact ⟨_, (mem_filter.mp inGroup).1⟩
  · cases inHits

/-- The scan reports a virus exactly if a signature occurs, and names one. -/
def ReportsRight
    (root : BmRoot)
    (file : FileMap)
    (buffer : List UInt8)
    (offset : Nat)
    (sigs : List BmSig) :
    Prop :=
  (∀ p, (cliBmScanbuff root file buffer offset none).1 = .virus p →
      ∃ sig ∈ sigs, StoredAs p sig ∧ sig.Occurs buffer) ∧
    ((∃ p, (cliBmScanbuff root file buffer offset none).1 = .virus p) ↔
      ∃ sig ∈ sigs, sig.Occurs buffer)

variable {sigs : List BmSig}

/-- The first hit is reported. -/
theorem cliBmScanbuff_star
    (inv : BmInv root sigs)
    (file : FileMap)
    (buffer : List UInt8)
    (offset : Nat) :
    (cliBmScanbuff root file buffer offset none).1 =
      match (hits root buffer).head? with
      | some hit => .virus hit.2
      | none => .clean := by
  have judges : ∀ hit ∈ hits root buffer, ∀ info, verdict file root.type offset none hit info =
        (if (fun _ => true) hit then .virus else .next, info) := by
    intro hit mem info
    obtain ⟨h, inChain⟩ := mem_bucket_of_mem_hits mem
    obtain ⟨-, sig, -, stored⟩ := inv.table.sound h hit.2 inChain
    unfold verdict
    rw [if_neg (not_not.mpr stored.offsetMin)]
    rfl
  rw [cliBmScanbuff_none inv.table, judgeAll_of_pure file root.type offset none _ _ judges]
  cases hits root buffer with
  | nil | cons hit rest => rfl

variable {sig : BmSig}

/-- A signature hits where it occurs unless it is hidden. -/
theorem exists_mem_hits_iff
    (inv : BmInv root sigs)
    (mem : p ∈ root.bmSuffix (bmHashAt p.pattern 0))
    (stored : StoredAs p sig) :
    (∃ i, (i, p) ∈ hits root buffer) ↔ ¬ Hidden root p ∧ sig.Occurs buffer := by
  constructor
  · rintro ⟨i, inHits⟩
    obtain ⟨-, notHidden, isMatch⟩ := (mem_hits_iff inv.table stored.holds).mp inHits
    obtain ⟨-, standsThere, atEnd⟩ := (textMatches_iff stored.holds).mp isMatch
    rw [stored.boundaryEol] at atEnd
    exact ⟨notHidden, i - p.prefixLength, standsThere, atEnd⟩
  rintro ⟨notHidden, start, standsThere, atEnd⟩
  refine ⟨start + p.prefixLength, (mem_hits_iff inv.table stored.holds).mpr ⟨mem, notHidden, ?_⟩⟩
  rw [textMatches_iff stored.holds, Nat.add_sub_cancel, stored.boundaryEol]
  exact ⟨Nat.le_add_left _ _, standsThere, atEnd⟩

/-- What is reported is not hidden. -/
theorem visible_of_virus
    {file : FileMap}
    {offset : Nat}
    (inv : BmInv root sigs)
    (reported : (cliBmScanbuff root file buffer offset none).1 = .virus p) :
    ∃ h, p ∈ root.bmSuffix h ∧ ¬ Hidden root p ∧
      ∃ sig ∈ sigs, StoredAs p sig ∧ sig.Occurs buffer := by
  rw [cliBmScanbuff_star inv] at reported
  cases first : (hits root buffer).head? with
  | none =>
    rw [first] at reported
    cases reported
  | some hit =>
    rw [first] at reported
    cases reported
    have mem : (hit.1, hit.2) ∈ hits root buffer := mem_of_mem_head? first
    obtain ⟨h, inChain⟩ := mem_bucket_of_mem_hits mem
    obtain ⟨hash, sig, sigMember, stored⟩ := inv.table.sound h hit.2 inChain
    rw [← hash] at inChain
    obtain ⟨notHidden, occurs⟩ := (exists_mem_hits_iff inv inChain stored).mp ⟨hit.1, mem⟩
    exact ⟨_, inChain, notHidden, sig, sigMember, stored, occurs⟩

theorem virus_of_visible
    (inv : BmInv root sigs)
    (file : FileMap)
    (offset : Nat)
    (mem : p ∈ root.bmSuffix h)
    (notHidden : ¬ Hidden root p)
    (stored : StoredAs p sig)
    (occurs : sig.Occurs buffer) :
    ∃ q, (cliBmScanbuff root file buffer offset none).1 = .virus q := by
  have hash := (inv.table.sound h p mem).1
  rw [← hash] at mem
  obtain ⟨i, inHits⟩ := (exists_mem_hits_iff inv mem stored).mpr ⟨notHidden, occurs⟩
  rw [cliBmScanbuff_star inv]
  cases found : hits root buffer with
  | nil =>
    rw [found] at inHits
    cases inHits
  | cons hit rest => exact ⟨hit.2, rfl⟩

theorem Holds.pattern_of_one_block
    {bytes : List UInt8}
    (holds : Holds p bytes)
    (oneBlock : bytes.length = bmMinLength) :
    p.pattern = bytes := by
  have split := holds.split
  have block := holds.block
  have noPrefix : p.prefixLength = 0 := by omega
  rw [holds.pattern, noPrefix, drop_zero]

/-- Signatures of one block share a bucket. -/
theorem bmLoad_length
    (sigs : List BmSig)
    {root loaded : BmRoot}
    (oneBlock : ∀ sig ∈ sigs, sig.bytes.length = bmMinLength ∧ bmHashAt sig.bytes 0 = h)
    (loads : bmLoad root sigs = .ok loaded) :
    (loaded.bmSuffix h).length = (root.bmSuffix h).length + sigs.length := by
  induction sigs generalizing root loaded with
  | nil =>
    cases loads
    rfl
  | cons sig rest ih =>
    obtain ⟨added, adds, changes⟩ := cliBmAddpatt_star root sig
    obtain ⟨oneLong, hash⟩ := oneBlock sig mem_cons_self
    have samePattern := (@placedPatt_holds sig.patt root anyOffset rfl rfl
        sig.longEnough).pattern_of_one_block oneLong
    have longer := changes.suffix h
    rw [samePattern, show sig.patt.pattern = sig.bytes from rfl, hash, if_pos rfl] at longer
    have lengths :=
      (chainInsert_perm (placedPatt root sig.patt anyOffset) (root.bmSuffix h)).length_eq
    rw [length_map, length_cons, length_map, ← longer] at lengths
    rw [bmLoad, adds] at loads
    have restLoads := ih (fun other mem => oneBlock other (mem_cons_of_mem _ mem)) loads
    rw [restLoads, lengths, length_cons]
    omega

/-- `01 00 00`, with the hash 211. -/
def crowdSig : BmSig := { bytes := [1, 0, 0], longEnough := by decide, fitsLength := by decide }

/-- `00 05 1a`, with the hash 211, too. -/
def maskedSig : BmSig := { bytes := [0, 5, 26], longEnough := by decide, fitsLength := by decide }

/-- A matcher as it comes from `mpool_calloc`. -/
def freshRoot : BmRoot := { bmShift := fun _ => 0, bmSuffix := fun _ => [] }

/--
After loading signatures with the offset `*`, the scan of a buffer is right
exactly if one of the signatures that occur, if any, is not hidden; and only a
chain of more than 65536 patterns hides anything.
-/
theorem bm_scan_right_iff_some_visible
    (sigs : List BmSig)
    (base : BmRoot)
    (offmode : base.bmOffmode = false) :
    ∃ root, bmLoad (cliBmInit base) sigs = .ok root ∧ (∀ file buffer offset,
          ReportsRight root file buffer offset sigs ↔ ((∃ sig ∈ sigs, sig.Occurs buffer) →
              ∃ h, ∃ p ∈ root.bmSuffix h, ¬ Hidden root p ∧
                ∃ sig ∈ sigs, StoredAs p sig ∧ sig.Occurs buffer)) ∧
        ∀ h, ∀ p ∈ root.bmSuffix h, Hidden root p → 2 ^ 16 < (root.bmSuffix h).length := by
  obtain ⟨root, loads, inv⟩ := bmLoad_inv sigs (cliBmInit base) [] (cliBmInit_inv offmode)
  rw [nil_append] at inv
  refine ⟨root, loads, ?_, ?_⟩
  · intro file buffer offset
    constructor
    · rintro ⟨-, complete⟩ someOccurs
      obtain ⟨p, reported⟩ := complete.mpr someOccurs
      obtain ⟨h, mem, notHidden, named⟩ := visible_of_virus inv reported
      exact ⟨h, p, mem, notHidden, named⟩
    intro someVisible
    refine ⟨?_, ?_, ?_⟩
    · intro p reported
      obtain ⟨-, -, -, named⟩ := visible_of_virus inv reported
      exact named
    · rintro ⟨p, reported⟩
      obtain ⟨-, -, -, sig, sigMember, -, occurs⟩ := visible_of_virus inv reported
      exact ⟨sig, sigMember, occurs⟩
    · intro someOccurs
      obtain ⟨h, p, mem, notHidden, sig, -, stored, occurs⟩ := someVisible someOccurs
      exact virus_of_visible inv file offset mem notHidden stored occurs
  · intro h p mem hidden
    have hash := (inv.table.sound h p mem).1
    subst hash
    exact hidden.length_gt mem

/-- With two signatures in one bucket, `00 05 1a` is reported. -/
theorem bm_scan_right_two_sigs : freshRoot.bmOffmode = false ∧ ∃ root,
        bmLoad (cliBmInit freshRoot) [maskedSig, crowdSig] = .ok root ∧
          ReportsRight root { len := 4 } [7, 0, 5, 26] 0 [maskedSig, crowdSig] := by
  obtain ⟨root, loads, right, hides⟩ :=
    bm_scan_right_iff_some_visible [maskedSig, crowdSig] freshRoot rfl
  refine ⟨rfl, root, loads, (right _ _ _).mpr ?_⟩
  intro _
  obtain ⟨loaded, loadsToo, inv⟩ := bmLoad_inv [maskedSig, crowdSig] (cliBmInit freshRoot) []
      (cliBmInit_inv rfl)
  rw [loads] at loadsToo
  cases loadsToo
  obtain ⟨h, p, mem, stored⟩ := inv.table.complete maskedSig mem_cons_self
  have hash := (inv.table.sound h p mem).1
  rw [stored.holds.pattern_of_one_block rfl] at hash
  refine ⟨h, p, mem, ?_, maskedSig, mem_cons_self, stored, 1,
    prefix_refl _, nofun⟩
  intro hidden
  have crowded := hides h p mem hidden
  rw [← hash] at crowded
  have length := bmLoad_length (h := 211) [maskedSig, crowdSig] (by
      intro sig sigMember
      simp only [mem_cons, not_mem_nil, or_false] at sigMember
      rcases sigMember with rfl | rfl
      · exact ⟨rfl, rfl⟩
      · exact ⟨rfl, rfl⟩)
    loads
  have two : (root.bmSuffix 211).length = 2 := length
  have crowdedTwo : 2 ^ 16 < (root.bmSuffix 211).length := crowded
  omega

/-- One of the two signatures, then 65536 times the other. -/
def crowdedSigs : List BmSig :=
  maskedSig :: replicate (2 ^ 16) crowdSig

theorem mem_crowdedSigs (mem : sig ∈ crowdedSigs) : sig = maskedSig ∨ sig = crowdSig := by
  rcases mem_cons.mp mem with isMasked | isCrowd
  · exact .inl isMasked
  · exact .inr (eq_of_mem_replicate isCrowd)

theorem crowdedSigs_hidden
    (inv : BmInv root crowdedSigs)
    (length : (root.bmSuffix 211).length = 2 ^ 16 + 1)
    (stored : StoredAs p maskedSig) :
    Hidden root p := by
  have masked := stored.holds.pattern_of_one_block rfl
  have crowdMember : crowdSig ∈ crowdedSigs := mem_cons_of_mem _
      (mem_replicate.mpr ⟨Nat.ne_of_gt (Nat.two_pow_pos 16), rfl⟩)
  obtain ⟨h, q, inChain, asCrowd⟩ := inv.table.complete crowdSig crowdMember
  have crowd := asCrowd.holds.pattern_of_one_block rfl
  have hash := (inv.table.sound h q inChain).1
  rw [crowd, show bmHashAt crowdSig.bytes 0 = 211 from rfl] at hash
  subst hash
  have sorted := inv.table.sorted 211
  unfold Hidden
  rw [masked, stored.pattern0, masked,
    show bmHashAt maskedSig.bytes 0 = 211 from rfl, length]
  refine ⟨rfl, ?_⟩
  cases chain : root.bmSuffix 211 with
  | nil =>
    rw [chain] at inChain
    cases inChain
  | cons head rest =>
    refine ⟨head, rfl, ?_⟩
    rw [chain] at inChain sorted
    have first : q.pattern0 = 1 := by
      rw [asCrowd.pattern0, crowd]
      rfl
    have greatest : q.pattern0 ≤ head.pattern0 := by
      rcases mem_cons.mp inChain with isHead | isLater
      · rw [isHead]
        exact UInt8.le_refl _
      · exact (pairwise_cons.mp sorted).1 q isLater
    intro isZero
    rw [first, isZero] at greatest
    exact absurd greatest (by decide)

/--
With 65537 patterns in one bucket, the only one that occurs is not reported:
the count of the head has wrapped around to 1.
-/
theorem bm_scan_misses_maskedSig : maskedSig ∈ crowdedSigs ∧ maskedSig.Occurs [0, 5, 26] ∧ ∃ root,
        bmLoad (cliBmInit freshRoot) crowdedSigs = .ok root ∧ ∀ file offset,
            ¬ ReportsRight root file [0, 5, 26] offset crowdedSigs := by
  have isMember : maskedSig ∈ crowdedSigs := mem_cons_self
  have occurs : maskedSig.Occurs [0, 5, 26] := by
    refine ⟨0, prefix_refl _, ?_⟩
    intro eol
    cases eol
  refine ⟨isMember, occurs, ?_⟩
  obtain ⟨root, loads, inv⟩ := bmLoad_inv crowdedSigs (cliBmInit freshRoot) [] (cliBmInit_inv rfl)
  rw [nil_append] at inv
  have length : (root.bmSuffix 211).length = 2 ^ 16 + 1 := by
    have grown := bmLoad_length (h := 211) crowdedSigs ?_ loads
    · rw [grown, crowdedSigs, length_cons, length_replicate]
      exact zero_add _
    intro sig mem
    rcases mem_crowdedSigs mem with rfl | rfl
    · exact ⟨rfl, rfl⟩
    · exact ⟨rfl, rfl⟩
  refine ⟨root, loads, ?_⟩
  rintro file offset ⟨-, complete⟩
  obtain ⟨p, reported⟩ := complete.mpr ⟨maskedSig, isMember, occurs⟩
  obtain ⟨h, -, notHidden, sig, sigMember, stored, sigOccurs⟩ := visible_of_virus inv reported
  rcases mem_crowdedSigs sigMember with isMasked | isCrowd
  · subst isMasked
    exact notHidden (crowdedSigs_hidden inv length stored)
  subst isCrowd
  obtain ⟨start, standsThere, -⟩ := sigOccurs
  have nonempty : 0 < crowdSig.bytes.length := by decide
  have inside := (isPrefix_drop_iff nonempty).mp standsThere
  have atStart : start = 0 := by
    have fits : start + 3 ≤ 3 := inside.1
    omega
  subst atStart
  exact absurd (inside.2 0 (by decide)) (by decide)

end LibClamav.Bm
