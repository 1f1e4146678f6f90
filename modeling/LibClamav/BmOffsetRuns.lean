import LibClamav.BmOffsetLoad

namespace LibClamav.Bm

open List

/-!
# Scanning with and without an offset table

Over the windows of a file, the scan with the table of `cli_bm_initoff` sees
the same matches as the scan without it.  They differ in what they know of the
file: the table asks for the header in the order in which the patterns were
loaded, the other scan in the order in which they match in a window, and a
header that cannot be read takes the offsets from the end of the file away from
all patterns that come later.  An absolute offset of `0xffffffff` is taken for
`CLI_OFF_ANY` by the scan without a table only.
-/

variable {count : Nat} {done : List BmPatt} {build : OffBuild} {windows : List (Nat × List UInt8)}

/-- What `cli_bm_initoff` knows after the first patterns. -/
structure Built (file : FileMap) (count : Nat) (done : List BmPatt) (build : OffBuild) : Prop where
  reading : Reading file build.info
  size : build.info.fsize = file.len
  failed : build.info.status = .failed ↔ parseFails file done = true
  room : build.offset.length = count
  inFile : ∀ entry ∈ build.offtab, entry < file.len
  named : ∀ entry ∈ build.offtab, ∃ q ∈ done, entry = entryOf file q
  absolute : ∀ q ∈ done, q.offdata.type = .absolute →
    (q.offsetMin + q.prefixLength) % 2 ^ 32 < file.len →
      (q.offsetMin + q.prefixLength) % 2 ^ 32 ∈ build.offtab
  relative : ∀ k q, done[k]? = some q → q.offdata.type ≠ .absolute →
    build.offset.getD k offNone = knownPlace file (done.take (k + 1)) q ∧
      (knownPlace file (done.take (k + 1)) q ≠ offNone →
        (knownPlace file (done.take (k + 1)) q + q.length) % 2 ^ 32 ≤ file.len →
        (knownPlace file (done.take (k + 1)) q + q.prefixLength) % 2 ^ 32 < file.len →
        (knownPlace file (done.take (k + 1)) q + q.prefixLength) % 2 ^ 32 ∈ build.offtab)

variable {file : FileMap}

/-- An entry of the file is pushed. -/
theorem mem_offtabPush
    {offtab : List Nat}
    {entry other : Nat} :
    other ∈ offtabPush file offtab entry ↔ other ∈ offtab ∨ (other = entry ∧ entry < file.len) := by
  unfold offtabPush
  split
  · constructor
    · exact .inl
    · rintro (isOld | ⟨-, inside⟩)
      · exact isOld
      · omega
  rename_i inside
  rw [mem_append, mem_singleton]
  constructor
  · rintro (isOld | isNew)
    · exact .inl isOld
    · exact .inr ⟨isNew, by omega⟩
  · rintro (isOld | ⟨isNew, -⟩)
    · exact .inl isOld
    · exact .inr isNew

variable {q : BmPatt}

theorem knownPlace_of_ne
    {before : List BmPatt}
    (isKnown : knownPlace file before q ≠ offNone) :
    knownPlace file before q = relativePlace file q.offdata := by
  unfold knownPlace at isKnown ⊢
  split_ifs at isKnown ⊢
  · exact absurd rfl isKnown
  · rfl

/-- A reading of the header keeps what is built. -/
theorem Built.extend
    {after : OffBuild}
    (built : Built file count done build)
    (reading : Reading file after.info)
    (size : after.info.fsize = file.len)
    (failed : after.info.status = .failed ↔ parseFails file (done ++ [q]) = true)
    (room : after.offset.length = count)
    (inFile : ∀ entry ∈ after.offtab,
      entry ∈ build.offtab ∨ entry = entryOf file q ∧ entry < file.len)
    (grows : ∀ entry ∈ build.offtab, entry ∈ after.offtab)
    (keeps : ∀ k < done.length, after.offset.getD k offNone = build.offset.getD k offNone)
    (absolute : q.offdata.type = .absolute → (q.offsetMin + q.prefixLength) % 2 ^ 32 < file.len →
        (q.offsetMin + q.prefixLength) % 2 ^ 32 ∈ after.offtab)
    (relative : q.offdata.type ≠ .absolute → after.offset.getD done.length offNone =
          knownPlace file (done ++ [q]) q ∧
        (knownPlace file (done ++ [q]) q ≠ offNone →
          (knownPlace file (done ++ [q]) q + q.length) % 2 ^ 32 ≤ file.len →
          (knownPlace file (done ++ [q]) q + q.prefixLength) % 2 ^ 32 < file.len →
          (knownPlace file (done ++ [q]) q + q.prefixLength) % 2 ^ 32 ∈ after.offtab)) :
    Built file count (done ++ [q]) after := by
  refine ⟨reading, size, failed, room, ?_, ?_, ?_, ?_⟩
  · intro entry mem
    rcases inFile entry mem with isOld | ⟨-, inside⟩
    · exact built.inFile entry isOld
    · exact inside
  · intro entry mem
    rcases inFile entry mem with isOld | ⟨isNew, -⟩
    · obtain ⟨other, isDone, isEntry⟩ := built.named entry isOld
      exact ⟨other, mem_append_left _ isDone, isEntry⟩
    · exact ⟨q, mem_append_right _ mem_cons_self, isNew⟩
  · intro other mem isAbsolute inside
    rcases mem_append.mp mem with isOld | isNew
    · exact grows _ (built.absolute other isOld isAbsolute inside)
    · rw [mem_singleton.mp isNew] at isAbsolute inside ⊢
      exact absolute isAbsolute inside
  intro k other isOther notAbsolute
  rcases lt_or_ge k done.length with isOld | isNew
  · rw [getElem?_append_left isOld] at isOther
    rw [take_append_of_le_length (Nat.succ_le_of_lt isOld), keeps k isOld]
    obtain ⟨place, listed⟩ := built.relative k other isOther notAbsolute
    exact ⟨place, fun isSome fits inside => grows _ (listed isSome fits inside)⟩
  have inside := (List.getElem?_eq_some_iff.mp isOther).1
  rw [length_append, length_singleton] at inside
  have here : k = done.length := by omega
  subst here
  rw [getElem?_append_right (Nat.le_refl _), Nat.sub_self] at isOther
  cases isOther
  have whole : (done ++ [q]).take (done.length + 1) = done ++ [q] := by
    apply take_of_length_le
    rw [length_append]
    exact le_rfl
  rw [whole]
  exact relative notAbsolute

variable {target : Nat}

/-- One round of `cli_bm_initoff`. -/
theorem initoffStep_built
    (built : Built file count done build)
    (placed : PlacedAs target done.length q)
    (fits : done.length < count) :
    ∃ after, initoffStep file target build q = .ok after ∧
        Built file count (done ++ [q]) after := by
  unfold initoffStep
  split_ifs with absolute
  · refine ⟨_, rfl, built.extend built.reading built.size ?_ built.room ?_ ?_
      (fun _ _ => rfl) ?_ (fun notAbsolute => absurd absolute notAbsolute)⟩
    · rw [built.failed, parseFails_append_singleton]
      have notHeader : q.offdata.isHeader = false := by simp [OffData.isHeader, absolute]
      simp [notHeader]
    · intro entry mem
      rcases mem_offtabPush.mp mem with isOld | ⟨isNew, inside⟩
      · exact .inl isOld
      refine .inr ⟨?_, isNew ▸ inside⟩
      rw [isNew, entryOf, namedPlace, if_pos absolute]
    · exact fun entry mem => mem_offtabPush.mpr (.inl mem)
    · exact fun _ inside => mem_offtabPush.mpr (.inr ⟨rfl, inside⟩)
  · obtain ⟨info, computes, reading, size, failed⟩ :=
      placed.caloff absolute built.reading built.failed
    have number := (placed.relative absolute).2
    rw [computes]
    refine ⟨_, rfl, built.extend reading (size built.size) failed ?_ ?_ ?_ ?_
      (fun isAbsolute => absurd isAbsolute absolute) (fun _ => ⟨?_, ?_⟩)⟩
    · rw [length_set, built.room]
    · intro entry mem
      split at mem
      · rename_i isKnown
        rcases mem_offtabPush.mp mem with isOld | ⟨isNew, inside⟩
        · exact .inl isOld
        refine .inr ⟨?_, isNew ▸ inside⟩
        rw [isNew, entryOf, namedPlace, if_neg absolute, knownPlace_of_ne isKnown.1]
      · exact .inl mem
    · intro entry mem
      split
      · exact mem_offtabPush.mpr (.inl mem)
      · exact mem
    · intro k isOld
      rw [number, getD_eq_getElem?_getD, getD_eq_getElem?_getD, getElem?_set_ne (by omega)]
    · rw [number, getD_eq_getElem?_getD, getElem?_set_self (by rw [built.room]; exact fits)]
      rfl
    · intro isSome lengthFits inside
      simp only [size built.size]
      split
      · exact mem_offtabPush.mpr (.inr ⟨rfl, inside⟩)
      rename_i isLast
      -- the entry is already there, as the last one
      have last : build.offtab.getLast? =
          some ((knownPlace file (done ++ [q]) q + q.prefixLength) % 2 ^ 32) := by
        by_contra differs
        exact isLast ⟨isSome, lengthFits, differs⟩
      exact mem_of_getLast? last

/-- The loop of `cli_bm_initoff`. -/
theorem initoffLoop_built
    (rest : List BmPatt)
    {done : List BmPatt}
    {build : OffBuild}
    (built : Built file count done build)
    (placed : ∀ k q, (done ++ rest)[k]? = some q → PlacedAs target k q)
    (total : (done ++ rest).length = count) :
    ∃ after, initoffLoop file target rest build = .ok after ∧
      Built file count (done ++ rest) after := by
  induction rest generalizing done build with
  | nil =>
    rw [append_nil]
    exact ⟨build, rfl, built⟩
  | cons q rest ih =>
    have isHere : (done ++ q :: rest)[done.length]? = some q := by
      rw [List.getElem?_append_right (Nat.le_refl _), Nat.sub_self]
      rfl
    have inside := (List.getElem?_eq_some_iff.mp isHere).1
    obtain ⟨next, steps, nextBuilt⟩ := initoffStep_built built (placed _ q isHere) (by omega)
    have shape : done ++ q :: rest = (done ++ [q]) ++ rest := by
      rw [append_assoc]
      rfl
    rw [shape] at placed total ⊢
    obtain ⟨after, loops, afterBuilt⟩ := ih nextBuilt placed total
    refine ⟨after, ?_, afterBuilt⟩
    rw [initoffLoop, steps]
    exact loops

/-- An offset table as `cli_bm_initoff` leaves it. -/
structure TableFor (root : BmRoot) (file : FileMap) (table : BmOff) : Prop where
  empty : root.bmPattab = [] → table.offtab = []
  sorted : table.offtab.Pairwise (· ≤ ·)
  inFile : ∀ entry ∈ table.offtab, entry < file.len
  absolute : ∀ q ∈ root.bmPattab, q.offdata.type = .absolute →
    (q.offsetMin + q.prefixLength) % 2 ^ 32 < file.len →
      (q.offsetMin + q.prefixLength) % 2 ^ 32 ∈ table.offtab
  relative : ∀ k q, root.bmPattab[k]? = some q → q.offdata.type ≠ .absolute →
    table.offset.getD k offNone = knownPlace file (root.bmPattab.take (k + 1)) q ∧
      (knownPlace file (root.bmPattab.take (k + 1)) q ≠ offNone →
        (knownPlace file (root.bmPattab.take (k + 1)) q + q.length) % 2 ^ 32 ≤ file.len →
        (knownPlace file (root.bmPattab.take (k + 1)) q + q.prefixLength) % 2 ^ 32 < file.len →
        (knownPlace file (root.bmPattab.take (k + 1)) q + q.prefixLength) % 2 ^ 32 ∈ table.offtab)

/-- The entries of the patterns in a file are less than 2 GiB apart. -/
def NearEntries (root : BmRoot) (file : FileMap) : Prop :=
  ∀ p ∈ root.bmPattab, ∀ q ∈ root.bmPattab,
    entryOf file p < file.len → entryOf file q < file.len →
      entryOf file p < entryOf file q + 2 ^ 31

/-- `cli_bm_initoff` builds a sorted table if the entries are near to each other. -/
theorem cliBmInitoff_ok
    {root : BmRoot}
    {file : FileMap}
    (offRoot : OffRoot root)
    (isFile : file.len < 2 ^ 32)
    (near : NearEntries root file) :
    ∃ table, cliBmInitoff root file = .ok table ∧ table.pos = 0 ∧ TableFor root file table := by
  unfold cliBmInitoff
  split_ifs with none
  · have empty : root.bmPattab = [] := by
      rw [offRoot.patterns] at none
      exact length_eq_zero_iff.mp none
    refine ⟨_, rfl, rfl, fun _ => rfl, List.Pairwise.nil, fun entry mem => ?_,
      fun q mem => ?_, fun k q isPatt => ?_⟩
    · cases mem
    · rw [empty] at mem
      cases mem
    · rw [empty] at isPatt
      cases isPatt
  · have fresh : Built file root.bmPatterns []
        ⟨replicate root.bmPatterns 0, [], { fsize := file.len }⟩ := by
      refine ⟨⟨.inr rfl, nofun, nofun⟩, rfl, ?_, length_replicate, nofun, nofun, nofun, nofun⟩
      simp [parseFails]
    obtain ⟨build, loops, built⟩ := initoffLoop_built root.bmPattab fresh offRoot.placed
        offRoot.patterns.symm
    rw [nil_append] at built
    have sorts : cliQsort build.offtab = build.offtab.insertionSort (· ≤ ·) := by
      refine cliQsort_eq (fun entry mem => lt_trans (built.inFile entry mem) isFile) ?_
      intro entry mem other otherMem
      have inside := built.inFile entry mem
      have otherInside := built.inFile other otherMem
      obtain ⟨p, isPatt, rfl⟩ := built.named entry mem
      obtain ⟨q, isOther, rfl⟩ := built.named other otherMem
      exact near p isPatt q isOther inside otherInside
    simp only [loops]
    refine ⟨_, rfl, rfl, ?_, ?_, ?_, ?_, ?_⟩
    · intro empty
      rw [offRoot.patterns, empty] at none
      exact absurd rfl none
    · rw [sorts]
      exact pairwise_insertionSort _ _
    · intro entry mem
      rw [sorts, mem_insertionSort] at mem
      exact built.inFile entry mem
    · intro q mem isAbsolute inside
      rw [sorts, mem_insertionSort]
      exact built.absolute q mem isAbsolute inside
    · intro k q isPatt notAbsolute
      obtain ⟨place, listed⟩ := built.relative k q isPatt notAbsolute
      refine ⟨place, ?_⟩
      rw [sorts, mem_insertionSort]
      exact listed

/-- Where a match begins in the file. -/
def hitStart
    (offset : Nat)
    (hit : Nat × BmPatt) :
    Nat := offset + hit.1 - hit.2.prefixLength

/--
A match stands at the place that its offset names, as far as that is known
after `before`, the patterns whose offsets were computed up to its own.
-/
def AtPlace
    (file : FileMap)
    (offset : Nat)
    (before : List BmPatt)
    (hit : Nat × BmPatt) :
    Prop :=
  if hit.2.offdata.type = .absolute then
    hit.2.offsetMin = hitStart offset hit
  else
    knownPlace file before hit.2 = hitStart offset hit

/-- The scan without a table accepts a match behind the matches `front`. -/
def PlainAccepts
    (file : FileMap)
    (offset : Nat)
    (front : List BmPatt)
    (hit : Nat × BmPatt) :
    Prop :=
  (hit.2.offdata.type = .absolute ∧ hit.2.offsetMin = offAny) ∨
    AtPlace file offset (front ++ [hit.2]) hit

/-- The scan with a table accepts a match. -/
def TableAccepts
    (root : BmRoot)
    (file : FileMap)
    (offset : Nat)
    (hit : Nat × BmPatt) :
    Prop :=
  AtPlace file offset (root.bmPattab.take (hit.2.offsetMin + 1)) hit

variable {offset : Nat} {hit : Nat × BmPatt}

/-- A known place decides about a hit. -/
theorem verdict_none
    {k : Nat}
    {before : List BmPatt}
    {info : TargetInfo}
    (placed : PlacedAs target k hit.2)
    (number : k ≠ offAny)
    (small : hitStart offset hit < offNone)
    (reading : Reading file info)
    (failed : info.status = .failed ↔ parseFails file before = true) :
    ∃ after, (verdict file target offset none hit info = (.virus, after) ∧
          PlainAccepts file offset before hit ∨
        verdict file target offset none hit info = (.next, after) ∧
          ¬ PlainAccepts file offset before hit) ∧
      Reading file after ∧
      (after.status = .failed ↔ parseFails file (before ++ [hit.2]) = true) := by
  have word : hitStart offset hit % 2 ^ 32 = hitStart offset hit := by
    have noneLt : offNone < 2 ^ 32 := by decide
    exact Nat.mod_eq_of_lt (lt_trans small noneLt)
  unfold hitStart at word small
  unfold verdict PlainAccepts AtPlace hitStart
  by_cases absolute : hit.2.offdata.type = .absolute
  · have same : hit.2.offsetMax = hit.2.offsetMin := by
      rcases placed.kind with ⟨-, same⟩ | ⟨-, notAbsolute, -⟩
      · exact same
      · exact absurd absolute notAbsolute
    have stillFailed : info.status = .failed ↔ parseFails file (before ++ [hit.2]) = true := by
      have notHeader : hit.2.offdata.isHeader = false := by simp [OffData.isHeader, absolute]
      rw [failed, parseFails_append_singleton]
      simp [notHeader]
    refine ⟨info, ?_, reading, stillFailed⟩
    by_cases isAny : hit.2.offsetMin = offAny
    · left
      rw [if_neg (not_not.mpr isAny)]
      exact ⟨rfl, .inl ⟨absolute, isAny⟩⟩
    rw [if_pos isAny]
    unfold offRangeAllows
    simp only [absolute, ↓reduceIte, same, word]
    by_cases here : hit.2.offsetMin = offset + hit.1 - hit.2.prefixLength
    · left
      rw [if_neg (by omega)]
      exact ⟨rfl, .inr here⟩
    right
    rw [if_pos (by omega)]
    refine ⟨rfl, ?_⟩
    rintro (⟨-, anywhere⟩ | there)
    · exact isAny anywhere
    · exact here there
  · have isNumber := (placed.relative absolute).2
    have notAny : hit.2.offsetMin ≠ offAny := by
      rw [isNumber]
      exact number
    obtain ⟨after, computes, afterReading, -, afterFailed⟩ := placed.caloff absolute reading failed
    refine ⟨after, ?_, afterReading, afterFailed⟩
    rw [if_pos notAny]
    unfold offRangeAllows
    simp only [absolute, ↓reduceIte, computes, word, false_and, false_or]
    by_cases here : knownPlace file (before ++ [hit.2]) hit.2 = offset + hit.1 - hit.2.prefixLength
    · left
      rw [if_neg (by omega)]
      exact ⟨rfl, here⟩
    · right
      rw [if_pos (by omega)]
      exact ⟨rfl, here⟩

theorem judgeAll_none
    {file : FileMap}
    {target offset : Nat}
    (behind : List (Nat × BmPatt))
    {front : List BmPatt}
    {info : TargetInfo}
    (good : ∀ hit ∈ behind, ∃ k, PlacedAs target k hit.2 ∧ k ≠ offAny ∧
      hitStart offset hit < offNone)
    (reading : Reading file info)
    (failed : info.status = .failed ↔ parseFails file front = true) :
    ((∃ p, (judgeAll file target offset none behind info).1 = .virus p) ∧
        (∃ passed hit rest, behind = passed ++ hit :: rest ∧
          PlainAccepts file offset (front ++ passed.map Prod.snd) hit)) ∨
      ((judgeAll file target offset none behind info).1 = .clean ∧
        ∀ passed hit rest, behind = passed ++ hit :: rest →
          ¬ PlainAccepts file offset (front ++ passed.map Prod.snd) hit) := by
  induction behind generalizing front info with
  | nil =>
    right
    refine ⟨rfl, ?_⟩
    intro passed hit rest shape
    cases passed <;> cases shape
  | cons first behind ih =>
    obtain ⟨k, placed, number, small⟩ := good first mem_cons_self
    obtain ⟨after, outcome, afterReading, afterFailed⟩ :=
      verdict_none placed number small reading failed
    rw [judgeAll]
    rcases outcome with ⟨judged, accepted⟩ | ⟨judged, refused⟩
    · left
      rw [judged]
      refine ⟨⟨first.2, rfl⟩, [], first, behind, rfl, ?_⟩
      rw [map_nil, append_nil]
      exact accepted
    rw [judged]
    have later := ih (fun hit mem => good hit (mem_cons_of_mem _ mem)) afterReading afterFailed
    rcases later with ⟨reported, passed, hit, rest, shape, accepted⟩ |
      ⟨isClean, refusedLater⟩
    · left
      refine ⟨reported, first :: passed, hit, rest, ?_, ?_⟩
      · rw [shape]
        rfl
      · rw [append_assoc] at accepted
        exact accepted
    right
    refine ⟨isClean, ?_⟩
    intro passed hit rest shape
    cases passed with
    | nil =>
      cases shape
      rw [map_nil, append_nil]
      exact refused
    | cons other passed =>
      cases shape
      have refusedHere := refusedLater passed hit rest rfl
      rw [append_assoc] at refusedHere
      exact refusedHere

theorem core_fields
    {p : BmPatt}
    (same : p.core = q.core) :
    p.offdata = q.offdata ∧ p.offsetMin = q.offsetMin ∧
      p.prefixLength = q.prefixLength ∧ p.length = q.length := by
  cases p
  cases q
  cases same
  exact ⟨rfl, rfl, rfl, rfl⟩

variable {root : BmRoot} {buffer : List UInt8}

/-- A hit belongs to a pattern of the table. -/
theorem OffRoot.hit_placed
    (offRoot : OffRoot root)
    (mem : hit ∈ hits root buffer) :
    ∃ k q, root.bmPattab[k]? = some q ∧ hit.2.core = q.core ∧
      PlacedAs root.type k hit.2 ∧ hit.2.prefixLength ≤ hit.1 ∧
      hit.1 + hit.2.length ≤ buffer.length ∧ 3 ≤ hit.2.length ∧
      hit ∈ hitsAt root buffer hit.1 := by
  obtain ⟨h, inChain⟩ := mem_bucket_of_mem_hits mem
  obtain ⟨-, q, isLoaded, same⟩ := offRoot.table.sound h hit.2 inChain
  obtain ⟨k, kInside, isPatt⟩ := getElem_of_mem isLoaded
  have atK : root.bmPattab[k]? = some q := List.getElem?_eq_some_iff.mpr ⟨kInside, isPatt⟩
  have placed := (offRoot.placed k q atK).of_core same
  obtain ⟨bytes, holds⟩ := placed.holds
  obtain ⟨inOwn, visible, isMatch⟩ := (mem_hits_iff offRoot.table holds).mp mem
  have block := holds.block
  unfold bmMinLength at block
  exact ⟨k, q, atK, same, placed, ((textMatches_iff holds).mp isMatch).1,
    (holds.block_of_textMatches isMatch).1, by omega,
    (mem_hitsAt_iff offRoot.table holds).mpr ⟨rfl, inOwn, visible, isMatch⟩⟩

variable {table : BmOff} {content : List UInt8} {maxpatlen : Nat}

section

variable (tableFor : TableFor root file table) (offRoot : OffRoot root)
variable (isFile : file.len < 2 ^ 32) (inside : offset + buffer.length ≤ file.len)

include tableFor offRoot isFile inside

/-- The table accepts a hit at its entry. -/
theorem TableFor.accepts
    (mem : hit ∈ hits root buffer) :
    (offTableAllows offset hit.1 (some table) hit.2 = true ↔ TableAccepts root file offset hit) ∧
      (TableAccepts root file offset hit → offset + hit.1 ∈ table.offtab) := by
  obtain ⟨k, q, atK, same, placed, prefixFits, fits, positive, -⟩ := offRoot.hit_placed mem
  obtain ⟨sameOffdata, sameMin, samePrefix, sameLength⟩ := core_fields same
  have start : hitStart offset hit + hit.2.prefixLength = offset + hit.1 := by
    unfold hitStart
    omega
  have word : (offset + hit.1 - hit.2.prefixLength) % 2 ^ 32 = hitStart offset hit := by
    exact Nat.mod_eq_of_lt (by omega)
  have entryWord : (offset + hit.1) % 2 ^ 32 = offset + hit.1 := by
    exact Nat.mod_eq_of_lt (by omega)
  unfold offTableAllows TableAccepts AtPlace
  simp only [word]
  by_cases absolute : hit.2.offdata.type = .absolute
  · simp only [absolute, ↓reduceIte]
    refine ⟨by simp, ?_⟩
    intro atStart
    have listed := tableFor.absolute q (mem_of_getElem? atK) (by rw [← sameOffdata]; exact absolute)
    rw [← sameMin, ← samePrefix, atStart, start, entryWord] at listed
    exact listed (by omega)
  simp only [absolute, ↓reduceIte]
  have number := (placed.relative absolute).2
  obtain ⟨known, listed⟩ := tableFor.relative k q atK (by rw [← sameOffdata]; exact absolute)
  have samePlace (before : List BmPatt) :
      knownPlace file before q = knownPlace file before hit.2 := by
    unfold knownPlace
    rw [sameOffdata]
  rw [samePlace] at known listed
  rw [number, known]
  generalize knownPlace file (root.bmPattab.take (k + 1)) hit.2 = place at *
  have noneBig : offNone = 0xfffffffe := rfl
  refine ⟨?_, ?_⟩
  · rw [Bool.and_eq_true, bne_iff_ne, beq_iff_eq]
    constructor
    · exact And.right
    · intro there
      exact ⟨by omega, there⟩
  intro there
  rw [there, ← samePrefix, ← sameLength, start, entryWord] at listed
  refine listed (by omega) ?_ (by omega)
  omega

/-- A window meets the entries that lie in it. -/
theorem TableFor.walk :
    (∃ entry ∈ table.offtab, offset ≤ entry ∧ TableHit root table offset buffer (entry - offset)) ↔
      ∃ hit ∈ hits root buffer, TableAccepts root file offset hit := by
  constructor
  · rintro ⟨entry, -, -, p, mem, allowed⟩
    have isHit : (entry - offset, p) ∈ hits root buffer := by
      have inWindow := TableHit.inside ⟨p, mem, allowed⟩
      unfold bmMinLength at inWindow
      exact mem_flatMap.mpr ⟨_, mem_range.mpr (by omega), mem⟩
    exact ⟨_, isHit, (tableFor.accepts offRoot isFile inside isHit).1.mp allowed⟩
  rintro ⟨hit, isHit, accepted⟩
  obtain ⟨-, -, -, -, -, -, -, -, isThere⟩ := offRoot.hit_placed isHit
  obtain ⟨allows, listed⟩ := tableFor.accepts offRoot isFile inside isHit
  refine ⟨offset + hit.1, listed accepted, Nat.le_add_right _ _, hit.2, ?_, ?_⟩
  · rw [Nat.add_sub_cancel_left]
    exact isThere
  · rw [Nat.add_sub_cancel_left]
    exact allows.mpr accepted

end

theorem scanWindows_inside
    (fuel : Nat)
    {offset : Nat}
    {window : Nat × List UInt8}
    (mem : window ∈ scanWindows content maxpatlen fuel offset) :
    window.1 + window.2.length ≤ content.length := by
  induction fuel generalizing offset window with
  | zero =>
    cases mem
  | succ fuel ih =>
    rw [scanWindows_succ] at mem
    by_cases inFile : offset < content.length
    · rw [if_pos inFile, mem_cons] at mem
      rcases mem with rfl | isLater
      · rw [length_take, length_drop]
        omega
      · split at isLater
        · cases isLater
        · exact ih isLater
    · rw [if_neg inFile] at mem
      cases mem

theorem TableFor.withPos
    (tableFor : TableFor root file table)
    (pos : Nat) :
    TableFor root file { table with pos := pos } :=
  { tableFor with }

/--
With a table, the windows from an offset on are reported exactly if one of
their matches is accepted.  The windows overlap by at least two bytes, so the
cursor never stops before the next window.
-/
theorem scanAll_some
    (offRoot : OffRoot root)
    (isContent : file.len = content.length)
    (isFile : file.len < 2 ^ 32)
    (overlap : root.bmPattab = [] ∨ bmMinLength ≤ maxpatlen)
    (fuel : Nat)
    {offset : Nat}
    {table : BmOff}
    (tableFor : TableFor root file table)
    (ahead : table.Ahead offset) :
    (scanAll root file (scanWindows content maxpatlen fuel offset) (some table) = true ↔
      ∃ window ∈ scanWindows content maxpatlen fuel offset, ∃ hit ∈ hits root window.2,
          TableAccepts root file window.1 hit) := by
  induction fuel generalizing offset table with
  | zero =>
    simp [scanWindows, Matcher.windows, scanAll]
  | succ fuel ih =>
    have insideAll := fun window => @scanWindows_inside content maxpatlen (fuel + 1) offset window
    rw [scanWindows_succ] at insideAll ⊢
    by_cases inFile : offset < content.length
    · rw [if_pos inFile] at insideAll ⊢
      have inside := insideAll _ mem_cons_self
      have isBytes : Matcher.windowBytes content.length offset =
          min (content.length - offset) Ac.scanBuff := rfl
      generalize Matcher.windowBytes content.length offset = bytes at *
      generalize isBuffer : (content.drop offset).take bytes = buffer at *
      have bufferLength : buffer.length = bytes := by
        rw [← isBuffer, length_take, length_drop]
        omega
      have walk := tableFor.walk offRoot isFile (by rw [isContent]; exact inside)
      obtain ⟨virus, clean, noError⟩ := cliBmScanbuff_some offRoot.table tableFor.sorted
          (fun entry mem => by
            have inTable := tableFor.inFile entry mem
            omega)
          ahead file buffer
      rw [scanAll]
      generalize cliBmScanbuff root file buffer offset (some table) = outcome at *
      obtain ⟨result, after⟩ := outcome
      cases result with
      | virus p =>
        obtain ⟨entry, mem, behind, isHit⟩ := virus p rfl
        obtain ⟨hit, isMember, accepted⟩ := walk.mp ⟨entry, mem, behind, isHit⟩
        exact ⟨fun _ => ⟨_, mem_cons_self, hit, isMember, accepted⟩, fun _ => rfl⟩
      | error code => exact absurd rfl (noError code)
      | clean =>
        obtain ⟨noneHere, pos, parks, posAtMost, posAhead⟩ := clean rfl
        have noHit : ¬ ∃ hit ∈ hits root buffer, TableAccepts root file offset hit := by
          rw [← walk]
          rintro ⟨entry, mem, behind, isHit⟩
          exact noneHere entry mem behind isHit
        subst parks
        simp only [mem_cons, exists_eq_or_imp, noHit, false_or]
        by_cases isShort : bytes < Ac.scanBuff
        · simp [isShort, scanAll]
        rw [if_neg isShort]
        refine ih (tableFor.withPos pos) ⟨posAtMost, fun less => ?_⟩
        rcases overlap with empty | longEnough
        · dsimp only at less
          rw [tableFor.empty empty] at less
          exact absurd less (Nat.not_lt_zero _)
        · unfold bmMinLength at longEnough
          dsimp only at less ⊢
          omega
    · rw [if_neg inFile]
      simp [scanAll]

theorem cliBmScanbuff_none_snd
    {Stored : BmPatt → α → Prop}
    {items : List α}
    (table : Table Stored root items)
    (file : FileMap)
    (buffer : List UInt8)
    (offset : Nat) :
    (cliBmScanbuff root file buffer offset none).2 = none := by
  have loop (fuel : Nat) : ∀ (i : Nat) (info : TargetInfo),
      (bmScanLoop root file buffer offset fuel i none info).2 = none := by
    induction fuel with
    | zero => exact fun _ _ => rfl
    | succ fuel ih =>
      intro i info
      by_cases inside : i + bmMinLength ≤ buffer.length
      · rw [bmScanLoop_succ table file buffer offset fuel i none info inside]
        split
        · exact ih _ _
        · rfl
      · rw [bmScanLoop, if_neg inside]
  unfold cliBmScanbuff
  split
  · rfl
  · exact loop _ _ _

/-- A match in one of the windows of a file, with the matches before it in the window. -/
structure Sighting (root : BmRoot) (windows : List (Nat × List UInt8)) where
  window : Nat × List UInt8
  isWindow : window ∈ windows
  front : List (Nat × BmPatt)
  hit : Nat × BmPatt
  behind : List (Nat × BmPatt)
  order : hits root window.2 = front ++ hit :: behind

/-- The scan with a table reports the match. -/
def Sighting.ByTable
    {root : BmRoot}
    {windows : List (Nat × List UInt8)}
    (sighting : Sighting root windows)
    (file : FileMap) :
    Prop :=
  TableAccepts root file sighting.window.1 sighting.hit

/-- The scan without a table reports the match, if nothing before it is reported. -/
def Sighting.Plainly
    {root : BmRoot}
    {windows : List (Nat × List UInt8)}
    (sighting : Sighting root windows)
    (file : FileMap) :
    Prop :=
  PlainAccepts file sighting.window.1 (sighting.front.map Prod.snd) sighting.hit

theorem Sighting.isHit
    (sighting : Sighting root windows) :
    sighting.hit ∈ hits root sighting.window.2 := by
  rw [sighting.order]
  exact mem_append_right _ mem_cons_self

/-- All windows without a table. -/
theorem scanAll_none
    (offRoot : OffRoot root)
    (fewPatterns : root.bmPattab.length ≤ offAny)
    (windows : List (Nat × List UInt8))
    (inside : ∀ window ∈ windows, window.1 + window.2.length < 2 ^ 32) :
    scanAll root file windows none = true ↔
      ∃ sighting : Sighting root windows, sighting.Plainly file := by
  induction windows with
  | nil =>
    constructor
    · intro isTrue
      cases isTrue
    · rintro ⟨sighting, -⟩
      exact nomatch sighting.isWindow
  | cons window rest ih =>
    obtain ⟨offset, buffer⟩ := window
    have later := ih fun other mem => inside other (mem_cons_of_mem _ mem)
    have here := inside (offset, buffer) mem_cons_self
    dsimp only at here
    have good (hit : Nat × BmPatt) (mem : hit ∈ hits root buffer) :
        ∃ k, PlacedAs root.type k hit.2 ∧ k ≠ offAny ∧ hitStart offset hit < offNone := by
      obtain ⟨k, q, atK, -, placed, prefixFits, fits, long, -⟩ := offRoot.hit_placed mem
      have kInside := (List.getElem?_eq_some_iff.mp atK).1
      have noneBig : offNone = 0xfffffffe := rfl
      refine ⟨k, placed, by omega, ?_⟩
      unfold hitStart
      omega
    have judged := @judgeAll_none file root.type offset (hits root buffer) [] {} good
      ⟨.inl rfl, nofun,
        nofun⟩ (by simp [parseFails])
    have result := cliBmScanbuff_none offRoot.table file buffer offset
    have noTable := cliBmScanbuff_none_snd offRoot.table file buffer offset
    rw [scanAll]
    generalize cliBmScanbuff root file buffer offset none = outcome at *
    obtain ⟨outcomeResult, after⟩ := outcome
    subst result
    subst noTable
    rcases judged with ⟨⟨p, isVirus⟩, passed, hit, behind, order, accepted⟩ |
      ⟨isClean, refused⟩
    · rw [isVirus]
      refine ⟨fun _ => ⟨⟨(offset, buffer), mem_cons_self, passed, hit,
        behind, order⟩, accepted⟩, fun _ => rfl⟩
    rw [isClean]
    rw [later]
    constructor
    · rintro ⟨⟨window, isWindow, front, hit, behind, order⟩, accepted⟩
      exact ⟨⟨window, mem_cons_of_mem _ isWindow, front, hit, behind, order⟩, accepted⟩
    rintro ⟨⟨window, isWindow, front, hit, behind, order⟩, accepted⟩
    rcases mem_cons.mp isWindow with isFirst | isLater
    · subst isFirst
      exact absurd accepted (refused front hit behind order)
    · exact ⟨⟨window, isLater, front, hit, behind, order⟩, accepted⟩

/-- The match stands at the place that its offset names. -/
def Sighting.Stands
    {root : BmRoot}
    {windows : List (Nat × List UInt8)}
    (sighting : Sighting root windows)
    (file : FileMap) :
    Prop :=
  namedPlace file sighting.hit.2 = hitStart sighting.window.1 sighting.hit

/-- The header is read in vain for a pattern that was loaded up to the one of the match. -/
def Sighting.LostByLoading
    {root : BmRoot}
    {windows : List (Nat × List UInt8)}
    (sighting : Sighting root windows)
    (file : FileMap) :
    Prop :=
  file.header = none ∧
    ∃ p ∈ root.bmPattab.take (sighting.hit.2.offsetMin + 1), p.offdata.isHeader = true

/-- The header is read in vain for a pattern that matches up to the match in the window. -/
def Sighting.LostByMatching
    {root : BmRoot}
    {windows : List (Nat × List UInt8)}
    (sighting : Sighting root windows)
    (file : FileMap) :
    Prop :=
  file.header = none ∧
    ∃ p ∈ sighting.front.map Prod.snd ++ [sighting.hit.2], p.offdata.isHeader = true

/-- A match at an absolute place, or at a relative one that no scan has lost. -/
def Sighting.Kept
    {root : BmRoot}
    {windows : List (Nat × List UInt8)}
    (sighting : Sighting root windows)
    (file : FileMap) :
    Prop :=
  sighting.Stands file ∧
    (sighting.hit.2.offdata.type = .absolute ∨
      ¬ sighting.LostByLoading file ∧ ¬ sighting.LostByMatching file)

/-- A match at a relative place that is lost by the order of the matches only. -/
def Sighting.LostPlainly
    {root : BmRoot}
    {windows : List (Nat × List UInt8)}
    (sighting : Sighting root windows)
    (file : FileMap) :
    Prop :=
  sighting.Stands file ∧ sighting.hit.2.offdata.type ≠ .absolute ∧
    ¬ sighting.LostByLoading file ∧ sighting.LostByMatching file

/--
A match at a relative place that is lost by the order of loading only, or anywhere with
the offset `0xffffffff`.
-/
def Sighting.LostByTable
    {root : BmRoot}
    {windows : List (Nat × List UInt8)}
    (sighting : Sighting root windows)
    (file : FileMap) :
    Prop :=
  sighting.hit.2.offdata.type = .absolute ∧ sighting.hit.2.offsetMin = offAny ∨
    sighting.Stands file ∧ sighting.hit.2.offdata.type ≠ .absolute ∧
      sighting.LostByLoading file ∧ ¬ sighting.LostByMatching file

/--
Some match is kept; or none is lost to one of the scans only; or each of them loses one
that the other keeps.
-/
def MatchesKept
    (root : BmRoot)
    (file : FileMap)
    (windows : List (Nat × List UInt8)) :
    Prop :=
  (∃ sighting : Sighting root windows, sighting.Kept file) ∨
    (∀ sighting : Sighting root windows,
      ¬ sighting.LostPlainly file ∧ ¬ sighting.LostByTable file) ∨
    ((∃ sighting : Sighting root windows, sighting.LostPlainly file) ∧
      ∃ sighting : Sighting root windows, sighting.LostByTable file)

section

variable (sighting : Sighting root windows)

/-- A match lies in its window, so its start is no special value. -/
theorem Sighting.start_lt
    (offRoot : OffRoot root)
    (inside : sighting.window.1 + sighting.window.2.length < 2 ^ 32) :
    hitStart sighting.window.1 sighting.hit < offNone := by
  obtain ⟨k, q, -, -, -, prefixFits, fits, long, -⟩ := offRoot.hit_placed sighting.isHit
  have noneBig : offNone = 0xfffffffe := rfl
  unfold hitStart
  omega

/-- A place is known as long as no header was read in vain. -/
theorem atPlace_iff
    {before : List BmPatt}
    (small : hitStart offset hit < offNone) :
    AtPlace file offset before hit ↔
      namedPlace file hit.2 = hitStart offset hit ∧
        (hit.2.offdata.type = .absolute ∨
          ¬ (file.header = none ∧ ∃ p ∈ before, p.offdata.isHeader = true)) := by
  unfold AtPlace namedPlace knownPlace
  rw [← parseFails_iff]
  split_ifs with absolute fails
  · simp [absolute]
  · simp only [absolute, fails, not_true_eq_false, or_self, and_false, iff_false]
    omega
  · simp [fails]

/-- When a sighting is reported by the table. -/
theorem Sighting.byTable_iff
    (offRoot : OffRoot root)
    (inside : sighting.window.1 + sighting.window.2.length < 2 ^ 32) :
    sighting.ByTable file ↔ sighting.Kept file ∨ sighting.LostPlainly file := by
  have small := sighting.start_lt offRoot inside
  unfold Sighting.ByTable TableAccepts Sighting.Kept Sighting.LostPlainly
  rw [atPlace_iff small]
  change sighting.Stands file ∧ (_ ∨ ¬ sighting.LostByLoading file) ↔ _
  tauto

/-- When it is reported without one. -/
theorem Sighting.plainly_iff
    (offRoot : OffRoot root)
    (inside : sighting.window.1 + sighting.window.2.length < 2 ^ 32) :
    sighting.Plainly file ↔ sighting.Kept file ∨ sighting.LostByTable file := by
  have small := sighting.start_lt offRoot inside
  unfold Sighting.Plainly PlainAccepts Sighting.Kept Sighting.LostByTable
  rw [atPlace_iff small]
  change _ ∨ sighting.Stands file ∧ (_ ∨ ¬ sighting.LostByMatching file) ↔ _
  tauto

end

theorem or_iff_or_left
    {shared first second : Prop} :
    (shared ∨ first ↔ shared ∨ second) ↔
      shared ∨ (¬ first ∧ ¬ second) ∨ (first ∧ second) := by
  tauto

/-- `def`, at the entry point of a program. -/
def entrySig : OffSig :=
  { bytes := [0x64, 0x65, 0x66], offset := ['E', 'P', '+', '0']
    fitsLength := by decide
    notAny := by decide
    noShift := by decide
    noVersion := by decide
    noMacro := by decide }

/-- `abc`, three bytes before the end of the file. -/
def endSig : OffSig :=
  { bytes := [0x61, 0x62, 0x63], offset := ['E', 'O', 'F', '-', '3']
    fitsLength := by decide
    notAny := by decide
    noShift := by decide
    noVersion := by decide
    noMacro := by decide }

variable {needle : List UInt8} {start : Nat}

/-- An occurrence of at most `maxpatlen` bytes lies in one of the windows. -/
theorem scanWindows_cover
    (isShort : maxpatlen < Ac.scanBuff)
    (isFile : content.length < 2 ^ 32)
    (isSome : 0 < needle.length)
    (fits : needle.length ≤ maxpatlen)
    (occurs : needle <+: content.drop start)
    (fuel : Nat)
    {offset : Nat}
    (enough : content.length ≤ offset + fuel)
    (behind : offset ≤ start) :
    ∃ window ∈ scanWindows content maxpatlen fuel offset, ∃ i, needle <+: window.2.drop i := by
  have ends := occurs.length_le
  rw [length_drop] at ends
  induction fuel generalizing offset with
  | zero => omega
  | succ fuel inductionHypothesis =>
    have isBytes : Matcher.windowBytes content.length offset =
        min (content.length - offset) Ac.scanBuff := rfl
    rw [scanWindows_succ, if_pos (by omega)]
    by_cases here : start + needle.length ≤ offset + Matcher.windowBytes content.length offset
    · refine ⟨_, mem_cons_self, start - offset, ?_⟩
      rw [drop_take, drop_drop, Nat.add_sub_cancel' behind, prefix_take_iff]
      exact ⟨occurs, by omega⟩
    · -- what reaches over the end starts in the part that the next window shares
      rw [if_neg (by omega)]
      obtain ⟨window, isLater, seen⟩ := @inductionHypothesis
        ((offset + Matcher.windowBytes content.length offset - maxpatlen) % 2 ^ 32)
        (by omega) (by omega)
      exact ⟨window, mem_cons_of_mem _ isLater, seen⟩

theorem isInfix_of_mem_scanWindows
    {window : Nat × List UInt8}
    {fuel : Nat}
    (mem : window ∈ scanWindows content maxpatlen fuel offset) :
    window.2 <:+: content := by
  obtain ⟨place, -, rfl⟩ := mem_map.mp mem
  exact ( take_prefix _ _).isInfix.trans (drop_suffix _ _).isInfix

/-- Signatures without an offset are found in some window. -/
theorem scanAll_star
    {sigs : List BmSig}
    (inv : BmInv root sigs) :
    scanAll root file windows none = true ↔ ∃ window ∈ windows, ∃ p,
      (cliBmScanbuff root file window.2 window.1 none).1 = .virus p := by
  induction windows with
  | nil => simp [scanAll]
  | cons window rest ih =>
    obtain ⟨offset, buffer⟩ := window
    have noTable := cliBmScanbuff_none_snd inv.table file buffer offset
    rcases outcome : cliBmScanbuff root file buffer offset none with ⟨result, after⟩
    rw [outcome] at noTable
    subst noTable
    cases result <;> simp [scanAll, outcome, ih]

/-- Signatures with the offset `*` are reported only if one of them occurs in the file, and
those of at most `maxpatlen` bytes are found in its windows, as long as the count of no
bucket, of 16 bits, wraps. -/
theorem file_scan_finds_signatures
    (sigs : List BmSig)
    (maxpatlen : Fin Ac.scanBuff) :
    ∃ root, bmLoad (cliBmInit freshRoot) sigs = .ok root ∧ ∀ file (content : List UInt8),
      let found := scanAll root file (scanWindows content maxpatlen content.length 0) none
      (found = true → ∃ sig ∈ sigs, sig.bytes <:+: content) ∧
        ((∀ h, (root.bmSuffix h).length ≤ 2 ^ 16) → content.length < 2 ^ 32 →
          ∀ sig ∈ sigs, sig.bytes.length ≤ maxpatlen → sig.boundaryEol = false →
            sig.bytes <:+: content → found = true) := by
  obtain ⟨root, loads, inv⟩ := bmLoad_inv sigs (cliBmInit freshRoot) [] (cliBmInit_inv rfl)
  rw [nil_append] at inv
  refine ⟨root, loads, fun file content => ?_⟩
  simp only [scanAll_star inv]
  constructor
  · rintro ⟨window, isWindow, p, reported⟩
    obtain ⟨-, -, -, sig, isSig, -, start, occurs, -⟩ := visible_of_virus inv reported
    have inWindow := occurs.isInfix.trans (drop_suffix _ _).isInfix
    exact ⟨sig, isSig, inWindow.trans (isInfix_of_mem_scanWindows isWindow)⟩
  · rintro few isFile sig isSig fits notEol ⟨before, behind, rfl⟩
    have occurs : sig.bytes <+: (before ++ sig.bytes ++ behind).drop before.length := by simp
    have isSome : 0 < _ := Nat.lt_of_lt_of_le (by decide) sig.longEnough
    obtain ⟨window, isWindow, i, seen⟩ := scanWindows_cover maxpatlen.isLt isFile isSome fits
      occurs _ (Nat.le_add_left _ _) (Nat.zero_le _)
    obtain ⟨h, p, isStored, stored⟩ := inv.table.complete sig isSig
    obtain ⟨rfl, -⟩ := inv.table.sound h p isStored
    refine ⟨window, isWindow, virus_of_visible inv file _ isStored (fun hidden => ?_) stored
      ⟨i, seen, by simp [notEol]⟩⟩
    exact absurd (hidden.length_gt isStored) (Nat.not_lt.mpr (few _))

end LibClamav.Bm
