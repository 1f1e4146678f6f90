import Mathlib.Data.List.Sort
import LibClamav.BmScan
import LibClamav.ScanWindows

namespace LibClamav.Bm

open CText List

/-!
# Offset tables

For a matcher in offset mode `cli_bm_initoff` collects the places of all its
patterns in a file, and `cli_bm_scanbuff` jumps from one entry of the sorted
table to the next one.  The cursor of the table is kept while
`cli_fmap_scandesc` moves its window over the file, and the windows overlap.
-/

/-- `CMP1`: the difference of two words as an `int`. -/
def cmp1 (a b : Nat) : Int := toInt32 (a + 2 ^ 32 - b % 2 ^ 32)

/-- `cli_qsort` on words without a comparison function. -/
def cliQsort (words : List Nat) : List Nat := words.insertionSort fun a b => cmp1 a b ≤ 0

/-- `offset`, `offtab` and `info` while `cli_bm_initoff` fills them. -/
structure OffBuild where
  offset : List Nat
  offtab : List Nat
  info : TargetInfo

/-- `offtab[cnt] = entry`; the entry stays if it lies in the file. -/
def offtabPush (file : FileMap) (offtab : List Nat) (entry : Nat) : List Nat :=
  if entry ≥ file.len then offtab else offtab ++ [entry]

/-- One round of the loop of `cli_bm_initoff`. -/
def initoffStep
    (file : FileMap)
    (target : Nat)
    (build : OffBuild)
    (patt : BmPatt) :
    Except ClError OffBuild :=
  if patt.offdata.type = .absolute then
    .ok
      { build with
        offtab := offtabPush file build.offtab
          ((patt.offsetMin + patt.prefixLength) % 2 ^ 32) }
  else
    match cliCaloffRelative file target build.info patt.offdata with
    | (.error code, _) => .error code
    | (.ok (off, _), info) =>
      let entry := (off + patt.prefixLength) % 2 ^ 32
      .ok
        { offset := build.offset.set patt.offsetMin off
          offtab :=
            if off ≠ offNone ∧ (off + patt.length) % 2 ^ 32 ≤ info.fsize ∧
                build.offtab.getLast? ≠ some entry then
              offtabPush file build.offtab entry
            else
              build.offtab
          info := info }

/-- The loop of `cli_bm_initoff`. -/
def initoffLoop
    (file : FileMap)
    (target : Nat) :
    List BmPatt → OffBuild → Except ClError OffBuild
  | [], build => .ok build
  | patt :: rest, build =>
    match initoffStep file target build patt with
    | .error code => .error code
    | .ok build => initoffLoop file target rest build

/-- `cli_bm_initoff` -/
def cliBmInitoff (root : BmRoot) (file : FileMap) : Except ClError BmOff :=
  if root.bmPatterns = 0 then
    .ok ⟨[], [], 0⟩
  else
    let fresh : OffBuild :=
      ⟨replicate root.bmPatterns 0, [], { fsize := file.len }⟩
    match initoffLoop file root.type root.bmPattab fresh with
    | .error code => .error code
    | .ok build => .ok ⟨build.offset, cliQsort build.offtab, 0⟩

/-- The windows of `cli_fmap_scandesc` from an offset on, with their bytes. -/
def scanWindows
    (content : List UInt8)
    (maxpatlen fuel offset : Nat) :
    List (Nat × List UInt8) :=
  (Matcher.windows content.length maxpatlen fuel offset).map fun window =>
    (window.1, (content.drop window.1).take window.2)

/-- One turn of the loop over the windows. -/
theorem scanWindows_succ
    (content : List UInt8)
    (maxpatlen fuel offset : Nat) :
    scanWindows content maxpatlen (fuel + 1) offset =
      if offset < content.length then
        (offset, (content.drop offset).take (Matcher.windowBytes content.length offset)) ::
          if Matcher.windowBytes content.length offset < Ac.scanBuff then
            []
          else
            scanWindows content maxpatlen fuel
              ((offset + Matcher.windowBytes content.length offset - maxpatlen) % 2 ^ 32)
      else
        [] := by
  rw [scanWindows, Matcher.windows]
  split_ifs with inFile isLast
  · rfl
  · rfl
  · rfl

/-- Scan one window after the other; `true` is a return of `CL_VIRUS`. -/
def scanAll
    (root : BmRoot)
    (file : FileMap) :
    List (Nat × List UInt8) → Option BmOff → Bool
  | [], _ => false
  | (offset, buffer) :: rest, offdata =>
    match cliBmScanbuff root file buffer offset offdata with
    | (.virus _, _) => true
    | (_, offdata) => scanAll root file rest offdata

/-- The difference of two words is right if they are less than 2 GiB apart. -/
theorem cmp1_le_zero_iff
    {a b : Nat}
    (aFits : a < 2 ^ 32)
    (bFits : b < 2 ^ 32)
    (aNear : a < b + 2 ^ 31)
    (bNear : b < a + 2 ^ 31) :
    cmp1 a b ≤ 0 ↔ a ≤ b := by
  unfold cmp1 toInt32
  split <;> omega

/-- `cli_qsort` sorts words that are less than 2 GiB apart. -/
theorem cliQsort_eq
    {words : List Nat}
    (fits : ∀ word ∈ words, word < 2 ^ 32)
    (near : ∀ word ∈ words, ∀ other ∈ words, word < other + 2 ^ 31) :
    cliQsort words = words.insertionSort (· ≤ ·) := by
  have same := map_insertionSort (fun a b => cmp1 a b ≤ 0) (· ≤ ·) id words
    fun a aMember b bMember => cmp1_le_zero_iff (fits a aMember) (fits b bMember)
      (near a aMember b bMember) (near b bMember a aMember)
  rw [map_id, map_id] at same
  exact same

theorem getD_le_getD
    {offtab : List Nat}
    {first second : Nat}
    (sorted : offtab.Pairwise (· ≤ ·))
    (order : first ≤ second)
    (inside : second < offtab.length) :
    offtab.getD first 0 ≤ offtab.getD second 0 := by
  have firstInside : first < offtab.length := by omega
  rcases lt_or_eq_of_le order with less | same
  · have ordered := pairwise_iff_getElem.mp sorted first second firstInside inside less
    simpa [getD_eq_getElem?_getD, firstInside, inside] using ordered
  · subst same
    exact le_rfl

/-- The next entry behind a place. -/
theorem offAdvance_spec
    (offtab : List Nat)
    (off fuel : Nat)
    (pos)
    (enough : offtab.length ≤ pos + fuel)
    (inside : pos ≤ offtab.length) :
    pos ≤ offAdvance offtab off fuel pos ∧
      offAdvance offtab off fuel pos ≤ offtab.length ∧
      (∀ k, pos ≤ k → k < offAdvance offtab off fuel pos → offtab.getD k 0 ≤ off) ∧
      (offAdvance offtab off fuel pos < offtab.length →
        off < offtab.getD (offAdvance offtab off fuel pos) 0) := by
  induction fuel generalizing pos with
  | zero =>
    rw [offAdvance]
    exact ⟨le_rfl, inside, fun k atLeast less => by omega, fun less => by omega⟩
  | succ fuel ih =>
    rw [offAdvance]
    split
    · rename_i passes
      obtain ⟨above, atMost, passed, stops⟩ := ih (pos + 1) (by omega) passes.1
      refine ⟨by omega, atMost, ?_, stops⟩
      intro k atLeast less
      rcases Nat.eq_or_lt_of_le atLeast with isFirst | isLater
      · rw [← isFirst]
        exact passes.2
      · exact passed k isLater less
    rename_i stays
    refine ⟨le_rfl, inside, fun k atLeast less => by omega, ?_⟩
    intro less
    by_contra notBefore
    exact stays ⟨less, not_lt.mp notBefore⟩

/-- A match at one index whose place the table names. -/
def TableHit
    (root : BmRoot)
    (table : BmOff)
    (offset : Nat)
    (buffer : List UInt8)
    (i : Nat) :
    Prop :=
  ∃ p, (i, p) ∈ hitsAt root buffer i ∧ offTableAllows offset i (some table) p = true

variable {root : BmRoot} {table : BmOff} {offset : Nat} {Stored : BmPatt → α → Prop}
  {items : List α}

theorem TableHit.inside
    {i : Nat}
    {buffer : List UInt8}
    (isHit : TableHit root table offset buffer i) :
    i + bmMinLength ≤ buffer.length := by
  obtain ⟨p, mem, -⟩ := isHit
  unfold hitsAt at mem
  split_ifs at mem with guards
  · exact guards.1
  · cases mem

/-- What the scan of a window from one entry of the table on ends with. -/
structure WalkSpec
    (root : BmRoot) (table : BmOff) (offset : Nat) (buffer : List UInt8) (considered : Nat → Prop)
    (result : BmResult × Option BmOff) : Prop where
  virus : ∀ p, result.1 = .virus p → ∃ entry ∈ table.offtab, considered entry ∧
      TableHit root table offset buffer (entry - offset)
  clean : result.1 = .clean → (∀ entry ∈ table.offtab, considered entry →
        ¬ TableHit root table offset buffer (entry - offset)) ∧
      ∃ pos, result.2 = some { table with pos := pos } ∧ pos ≤ table.offtab.length ∧
        (pos < table.offtab.length → offset + buffer.length < table.offtab.getD pos 0 + 3)
  noError : ∀ code, result.1 ≠ .error code

section

variable {buffer : List UInt8} {considered later : Nat → Prop}

theorem WalkSpec.parked
    {pos : Nat}
    (atMost : pos ≤ table.offtab.length)
    (noHit : ∀ entry ∈ table.offtab, considered entry →
      ¬ TableHit root table offset buffer (entry - offset))
    (ahead : pos < table.offtab.length → offset + buffer.length < table.offtab.getD pos 0 + 3) :
    WalkSpec root table offset buffer considered (.clean, some { table with pos := pos }) :=
  ⟨nofun, fun _ => ⟨noHit, pos, rfl, atMost, ahead⟩, nofun⟩

theorem WalkSpec.of_later
    {result : BmResult × Option BmOff}
    (spec : WalkSpec root table offset buffer later result)
    (weaker : ∀ entry, later entry → considered entry)
    (rest : ∀ entry ∈ table.offtab, considered entry →
      later entry ∨ ¬ TableHit root table offset buffer (entry - offset)) :
    WalkSpec root table offset buffer considered result := by
  refine ⟨fun p found => ?_, fun isClean => ?_, spec.noError⟩
  · obtain ⟨entry, mem, isLater, isHit⟩ := spec.virus p found
    exact ⟨entry, mem, weaker entry isLater, isHit⟩
  · obtain ⟨noneLater, parked⟩ := spec.clean isClean
    exact ⟨fun entry mem isConsidered =>
      (rest entry mem isConsidered).elim (noneLater entry mem) id, parked⟩

end

/-- A hit at an entry is reported. -/
theorem judgeAll_some
    (root : BmRoot)
    (file : FileMap)
    (table : BmOff)
    (offset i : Nat)
    (buffer : List UInt8)
    (info : TargetInfo) :
    (∃ p, judgeAll file root.type offset (some table) (hitsAt root buffer i)
          info = (.virus p, info) ∧
        TableHit root table offset buffer i) ∨
      judgeAll file root.type offset (some table) (hitsAt root buffer i) info = (.clean, info) ∧
        ¬ TableHit root table offset buffer i := by
  have isThere (hit : Nat × BmPatt) (mem : hit ∈ hitsAt root buffer i) : hit.1 = i := by
    unfold hitsAt at mem
    split at mem
    · obtain ⟨q, -, same⟩ := mem_map.mp mem
      rw [← same]
    · cases mem
  rw [@judgeAll_of_pure file root.type offset (some table)
    (fun hit => offTableAllows offset hit.1 (some table) hit.2) _ info ?_]
  · cases found : (hitsAt root buffer i).find? fun hit =>
        offTableAllows offset hit.1 (some table) hit.2 with
    | some hit =>
      left
      have mem := mem_of_find?_eq_some found
      have good := find?_some found
      obtain ⟨k, p⟩ := hit
      have here : k = i := isThere (k, p) mem
      subst here
      exact ⟨p, rfl, p, mem, good⟩
    | none =>
      right
      refine ⟨rfl, ?_⟩
      rintro ⟨p, mem, good⟩
      exact find?_eq_none.mp found (i, p) mem good
  · intro hit _ info
    unfold verdict
    simp only
    split <;> rfl

/-- The loop goes from entry to entry. -/
theorem bmScanLoop_some
    (sound : Table Stored root items)
    (sorted : table.offtab.Pairwise (· ≤ ·))
    (fits : ∀ entry ∈ table.offtab, entry < 2 ^ 32)
    (file : FileMap)
    (buffer : List UInt8)
    (offset fuel : Nat) :
    ∀ (i pos : Nat) (info : TargetInfo), buffer.length ≤ i + fuel → pos < table.offtab.length →
      table.offtab.getD pos 0 = offset + i →
      WalkSpec root table offset buffer (offset + i ≤ ·) (bmScanLoop root file buffer offset fuel i
          (some { table with pos := pos }) info) := by
  -- entries from the end of the window on have no matches
  have leaves (i pos : Nat) (inside : pos < table.offtab.length)
      (atEntry : table.offtab.getD pos 0 = offset + i)
      (atEnd : buffer.length < i + 3) :
      WalkSpec root table offset buffer (offset + i ≤ ·)
        (.clean, some { table with pos := pos }) := by
    refine .parked (le_of_lt inside) (fun entry _ behind isHit => ?_) fun _ => by omega
    have hitInside := isHit.inside
    unfold bmMinLength at hitInside
    omega
  induction fuel with
  | zero =>
    intro i pos info enough inside atEntry
    exact leaves i pos inside atEntry (by omega)
  | succ fuel ih =>
    intro i pos info enough inside atEntry
    by_cases inWindow : i + bmMinLength ≤ buffer.length
    · rw [bmScanLoop_succ sound file buffer offset fuel i _ info inWindow]
      have isEntry : offset + i ∈ table.offtab := by
        rw [← atEntry]
        simp [getD_eq_getElem?_getD, inside]
      have word : (offset + i) % 2 ^ 32 = offset + i := Nat.mod_eq_of_lt (fits _ isEntry)
      have here : offset + i - offset = i := by omega
      rcases judgeAll_some root file { table with pos := pos } offset i
        buffer info with ⟨p, judged, isHit⟩ | ⟨judged, noHit⟩
      · rw [judged]
        refine ⟨fun q _ => ⟨offset + i, isEntry, le_rfl, ?_⟩, nofun, nofun⟩
        rw [here]
        exact isHit
      rw [judged]
      simp only [bmNext, word]
      obtain ⟨above, atMost, passed, stops⟩ :=
        offAdvance_spec table.offtab (offset + i) table.offtab.length pos
          (by omega) (le_of_lt inside)
      generalize offAdvance table.offtab (offset + i) table.offtab.length pos = next at *
      -- an entry from here on is this one, or not before the next one
      have later (entry : Nat) (mem : entry ∈ table.offtab) (behind : offset + i ≤ entry) :
          entry = offset + i ∨ (next < table.offtab.length ∧ table.offtab.getD next 0 ≤ entry) := by
        obtain ⟨k, kInside, atK⟩ := getElem_of_mem mem
        have value : table.offtab.getD k 0 = entry := by simp [getD_eq_getElem?_getD, kInside, atK]
        by_cases before : k < next
        · left
          have atMostHere : table.offtab.getD k 0 ≤ offset + i := by
            by_cases passedOver : pos ≤ k
            · exact passed k passedOver before
            · rw [← atEntry]
              exact getD_le_getD sorted (by omega) inside
          omega
        · right
          have order := getD_le_getD sorted (not_lt.mp before) kInside
          exact ⟨by omega, by omega⟩
      have notHere (entry : Nat) (isHere : entry = offset + i) :
          ¬ TableHit root table offset buffer (entry - offset) := by
        rw [isHere, here]
        exact noHit
      by_cases atEnd : next = table.offtab.length
      · rw [if_pos (.inl atEnd)]
        refine .parked atMost (fun entry mem behind => ?_) fun less => by omega
        rcases later entry mem behind with isHere | ⟨less, -⟩
        · exact notHere entry isHere
        · omega
      have less : next < table.offtab.length := by omega
      have goesOn : ¬ (next = table.offtab.length ∨ offset + i ≥ table.offtab.getD next 0) := by
        omega
      rw [if_neg goesOn]
      have place : table.offtab.getD next 0 =
          offset + (i + (table.offtab.getD next 0 - (offset + i))) := by
        omega
      refine (ih _ next info (by omega) less place).of_later (fun entry _ => by omega)
        fun entry mem behind => ?_
      rcases later entry mem behind with isHere | ⟨-, notBefore⟩
      · exact .inr (notHere entry isHere)
      · exact .inl (by omega)
    · rw [bmScanLoop, if_neg inWindow]
      unfold bmMinLength at inWindow
      exact leaves i pos inside atEntry (by omega)

theorem offStart_spec
    (offset : Nat)
    (offtab : List Nat) :
    ∀ last, offStart offset offtab last ≤ last ∧ (∀ k, offStart offset offtab last < k → k ≤ last →
          offset < offtab.getD k 0) ∧
        (offStart offset offtab last = 0 ∨
          offtab.getD (offStart offset offtab last) 0 ≤ offset) := by
  intro last
  induction last with
  | zero =>
    exact ⟨le_rfl, fun k above atMost => by
      rw [offStart] at above
      omega, .inl rfl⟩
  | succ last ih =>
    obtain ⟨atMost, behind, stops⟩ := ih
    rw [offStart]
    split
    · rename_i goesBack
      refine ⟨by omega, ?_, stops⟩
      intro k above atMostLast
      by_cases isLast : k = last + 1
      · rw [isLast]
        exact goesBack
      · exact behind k above (by omega)
    · rename_i stays
      exact ⟨le_rfl, fun k above atMostLast => by omega, .inr (not_lt.mp stays)⟩

/-- The cursor is past the table, or at an entry that is not before an offset. -/
def BmOff.Ahead (table : BmOff) (offset : Nat) : Prop :=
  table.pos ≤ table.offtab.length ∧ (table.pos < table.offtab.length →
      offset ≤ table.offtab.getD table.pos 0)

/-- The cursor at the start of a scan. -/
def startPos (table : BmOff) (offset : Nat) : Nat :=
  if table.offtab.getD
      (offStart offset table.offtab (if table.pos = table.offtab.length then table.pos - 1
          else table.pos)) 0 < offset then
    offStart offset table.offtab (if table.pos = table.offtab.length then table.pos - 1
        else table.pos) + 1
  else
    offStart offset table.offtab (if table.pos = table.offtab.length then table.pos - 1
        else table.pos)

/-- It starts at the first entry of the window. -/
theorem startPos_spec
    (sorted : table.offtab.Pairwise (· ≤ ·))
    (nonempty : table.offtab ≠ [])
    (posAtMost : table.pos ≤ table.offtab.length)
    (posAhead : table.pos < table.offtab.length → offset ≤ table.offtab.getD table.pos 0) :
    startPos table offset ≤ table.offtab.length ∧ (startPos table offset < table.offtab.length →
        offset ≤ table.offtab.getD (startPos table offset) 0) ∧
      ∀ entry ∈ table.offtab, offset ≤ entry → startPos table offset < table.offtab.length ∧
          table.offtab.getD (startPos table offset) 0 ≤ entry := by
  have positive := length_pos_iff.mpr nonempty
  unfold startPos
  generalize lastEq : (if table.pos = table.offtab.length then table.pos - 1
    else table.pos) = last
  have lastInside : last < table.offtab.length := by
    split at lastEq <;> omega
  -- behind the last entry there is nothing, unless that entry is ahead
  have lastAhead : last + 1 = table.offtab.length ∨ offset ≤ table.offtab.getD last 0 := by
    split at lastEq
    · left
      omega
    · right
      rw [← lastEq]
      exact posAhead (by omega)
  obtain ⟨atMost, behind, stops⟩ := offStart_spec offset table.offtab last
  generalize offStart offset table.offtab last = before at *
  have inTable (entry : Nat) (mem : entry ∈ table.offtab) :
      ∃ k < table.offtab.length, table.offtab.getD k 0 = entry := by
    obtain ⟨k, kInside, atK⟩ := getElem_of_mem mem
    exact ⟨k, kInside, by simp [getD_eq_getElem?_getD, kInside, atK]⟩
  split
  · rename_i isBefore
    refine ⟨by omega, ?_, ?_⟩
    · intro less
      by_cases isLast : before = last
      · subst isLast
        omega
      · exact le_of_lt (behind (before + 1) (by omega) (by omega))
    intro entry mem notBefore
    obtain ⟨k, kInside, value⟩ := inTable entry mem
    have past : before < k := by
      by_contra atMostBefore
      have order := getD_le_getD sorted (not_lt.mp atMostBefore)
        (by omega : before < table.offtab.length)
      omega
    have order := getD_le_getD sorted (Nat.succ_le_of_lt past) kInside
    exact ⟨by omega, by rw [← value]; exact order⟩
  · rename_i notBefore
    refine ⟨by omega, fun _ => not_lt.mp notBefore, ?_⟩
    intro entry mem entryAhead
    refine ⟨by omega, ?_⟩
    rcases stops with isFirst | atMostOffset
    · obtain ⟨k, kInside, value⟩ := inTable entry mem
      rw [isFirst, ← value]
      exact getD_le_getD sorted (Nat.zero_le k) kInside
    · omega

/-- A scan by the table reports a hit at one of its entries. -/
theorem cliBmScanbuff_some
    (sound : Table Stored root items)
    (sorted : table.offtab.Pairwise (· ≤ ·))
    (fits : ∀ entry ∈ table.offtab, entry < 2 ^ 32)
    (ahead : table.Ahead offset)
    (file : FileMap)
    (buffer : List UInt8) :
    WalkSpec root table offset buffer (offset ≤ ·)
      (cliBmScanbuff root file buffer offset (some table)) := by
  obtain ⟨posAtMost, posAhead⟩ := ahead
  unfold cliBmScanbuff
  split_ifs with tooShort
  · unfold bmMinLength at tooShort
    refine .parked posAtMost (fun entry _ _ isHit => ?_) fun less => ?_
    · have hitInside := isHit.inside
      unfold bmMinLength at hitInside
      omega
    · have notBefore := posAhead less
      omega
  simp only
  by_cases empty : table.offtab = []
  · rw [if_pos empty]
    refine .parked posAtMost (fun entry mem => ?_) fun less => ?_
    · rw [empty] at mem
      cases mem
    · rw [empty] at less
      exact absurd less (Nat.not_lt_zero _)
  rw [if_neg empty]
  obtain ⟨atMost, notBefore, reached⟩ := startPos_spec sorted empty posAtMost posAhead
  unfold startPos at atMost notBefore reached
  generalize (if table.offtab.getD _ 0 < offset then _ else _) = pos at *
  by_cases past : pos ≥ table.offtab.length
  · rw [if_pos past]
    refine .parked atMost (fun entry mem behind => ?_) fun less => by omega
    have inTable := (reached entry mem behind).1
    omega
  have less := not_le.mp past
  have entryFits : table.offtab.getD pos 0 < 2 ^ 32 := by
    refine fits _ ?_
    simp [getD_eq_getElem?_getD, less]
  have index : (table.offtab.getD pos 0 + 2 ^ 32 - offset % 2 ^ 32) %
      2 ^ 32 = table.offtab.getD pos 0 - offset := by
    omega
  rw [if_neg past, index]
  have scanned := bmScanLoop_some sound sorted fits file buffer offset buffer.length
    (table.offtab.getD pos 0 - offset) pos {} (by omega) less (by omega)
  refine scanned.of_later (fun entry _ => by omega) fun entry mem behind => ?_
  have fromHere := (reached entry mem behind).2
  exact .inl (by omega)

end LibClamav.Bm
