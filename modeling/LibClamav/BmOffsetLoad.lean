import Mathlib.Data.List.TakeDrop
import LibClamav.BmOffsetTable
import LibClamav.Separators

namespace LibClamav.Bm

open CText List

/-!
# Matchers in offset mode

`cli_parse_add` gives a matcher in offset mode only patterns with one place in
a file: absolute ones, and ones relative to the end of the file or to a program
header.  A pattern with a relative offset keeps its number in place of its
offset, and `cli_bm_initoff` computes the offsets of a file under these
numbers.
-/

variable {target k : Nat} {p : BmPatt} {text : List Char} {off : Offset} {sig : OffSig}

/-- A signature that `cli_parse_add` hands to a matcher in offset mode. -/
structure OffSig where
  bytes : List UInt8
  offset : List Char
  virname : List Char := []
  fitsLength : bytes.length < 2 ^ 16
  notAny : offset ≠ ['*']
  noShift : ',' ∉ offset
  noVersion : ¬ ['V', 'I'] <:+: offset
  noMacro : '$' ∉ offset

/-- The pattern that `cli_parse_add` allocates. -/
def OffSig.patt (sig : OffSig) : BmPatt :=
  { pattern := sig.bytes
    length := sig.bytes.length
    virname := sig.virname }

/-- The last branch of `cli_parse_add`, for one signature after the other. -/
def cliParseAddAll
    (root : BmRoot)
    (maxpatlen : Nat) :
    List OffSig → Except ClError (BmRoot × Nat)
  | [] => .ok (root, maxpatlen)
  | sig :: rest =>
    match cliBmAddpatt root sig.patt sig.offset with
    | .error code => .error code
    | .ok added =>
      cliParseAddAll added (max maxpatlen sig.bytes.length) rest

/-- A matcher as `cli_initroots` leaves it, in offset mode. -/
def offmodeRoot
    (target : Nat)
    (filter : Option Prefilter.Filter) :
    BmRoot := cliBmInit
    { type := target
      filter := filter
      bmOffmode := true
      bmShift := fun _ => 0
      bmSuffix := fun _ => [] }

/-- A pattern that was loaded as number `k` into a matcher for a target. -/
structure PlacedAs (target k : Nat) (p : BmPatt) : Prop where
  holds : ∃ bytes, Holds p bytes
  allowed : targetAllows target p.offdata.type = true
  noShift : p.offdata.maxShift = 0
  kind : (p.offdata.type = .absolute ∧ p.offsetMax = p.offsetMin) ∨
      ((p.offdata.type = .eofMinus ∨ p.offdata.isHeader = true) ∧
        p.offdata.type ≠ .absolute ∧ p.offsetMin = k)

theorem PlacedAs.of_core
    {q : BmPatt}
    (placed : PlacedAs target k q)
    (same : p.core = q.core) :
    PlacedAs target k p := by
  obtain ⟨bytes, holds⟩ := placed.holds
  have holdsToo := holds.of_core same
  cases p
  cases q
  cases same
  exact ⟨⟨bytes, holdsToo⟩, placed.allowed, placed.noShift, placed.kind⟩

/-- A place that is not absolute is relative to the file. -/
theorem PlacedAs.relative
    (placed : PlacedAs target k p)
    (notAbsolute : p.offdata.type ≠ .absolute) :
    (p.offdata.type = .eofMinus ∨ p.offdata.isHeader = true) ∧ p.offsetMin = k := by
  rcases placed.kind with ⟨absolute, -⟩ | ⟨relative, -, number⟩
  · exact absurd absolute notAbsolute
  · exact ⟨relative, number⟩

/-- A matcher in offset mode, with its patterns in the order in which they were loaded. -/
structure OffRoot (root : BmRoot) : Prop where
  offmode : root.bmOffmode = true
  patterns : root.bmPatterns = root.bmPattab.length
  table : Table (fun p q => p.core = q.core) root root.bmPattab
  placed : ∀ k q, root.bmPattab[k]? = some q → PlacedAs root.type k q

theorem atoi_lt (text : List Char) : atoi text < 2 ^ 32 := by
  unfold atoi
  cases scanned : scanUnsigned text with
  | none => decide
  | some converted => exact scanUnsigned_lt scanned

theorem splitComma_of_not_mem (noComma : ',' ∉ text) : splitComma text = (text, none) := by
  unfold splitComma
  rw [span_eq_takeWhile_dropWhile, Separators.takeWhile_ne_of_notMem noComma,
    Separators.dropWhile_ne_of_notMem noComma]

/-- An offset that is absolute, or counted from the end or from a header. -/
abbrev IsUnshifted (off : Offset) : Prop :=
  off.offdata.maxShift = 0 ∧ ((off.offdata.type = .absolute ∧ off.offsetMax = off.offsetMin) ∨
    ((off.offdata.type = .eofMinus ∨ off.offdata.isHeader = true) ∧ off.offdata.type ≠ .absolute))

/-- The branches of `cli_caloff` that signatures of this kind can take. -/
theorem decodeBase_kind
    (noVersion : ¬ ['V', 'I'] <:+: text)
    (noMacro : '$' ∉ text)
    (decodes : decodeBase text 0 = .ok off) :
    IsUnshifted off := by
  have ofNumber (type : OffType) (number : List Char) (isRelative : type = .eofMinus ∨
        ({ type := type } : OffData).isHeader = true)
      (reads : relativeOffset type 0 number = .ok off) : IsUnshifted off := by
    unfold relativeOffset at reads
    split at reads
    · cases reads
      refine ⟨rfl, .inr ⟨isRelative, ?_⟩⟩
      rintro rfl
      rcases isRelative with isEof | isHeader
      · cases isEof
      · cases isHeader
    · cases reads
  unfold decodeBase at decodes
  split at decodes
  · exact ofNumber .epPlus _ (.inr rfl) decodes
  · exact ofNumber .epMinus _ (.inr rfl) decodes
  · exact ofNumber .slPlus _ (.inr rfl) decodes
  · split at decodes
    · cases decodes
      exact ⟨rfl, .inr ⟨.inr rfl, nofun⟩⟩
    · cases decodes
  · exact ofNumber .eofMinus _ (.inl rfl) decodes
  · exact absurd (infix_iff_prefix_suffix.mpr ⟨_, ⟨_, rfl⟩, suffix_refl _⟩) noVersion
  · rw [if_neg noMacro] at decodes
    split at decodes
    · cases decodes
      refine ⟨rfl, .inl ⟨rfl, ?_⟩⟩
      exact Nat.mod_eq_of_lt (atoi_lt text)
    · cases decodes

/-- An offset that is accepted fits its target. -/
theorem OffSig.caloff
    (decodes : cliCaloff sig.offset target = .ok off) :
    targetAllows target off.offdata.type = true ∧ IsUnshifted off := by
  unfold cliCaloff at decodes
  rw [if_neg sig.notAny] at decodes
  split at decodes
  · cases decodes
  rw [splitComma_of_not_mem sig.noShift] at decodes
  simp only [Option.map_none, Option.getD_none, ↓reduceIte] at decodes
  split at decodes
  · cases decodes
  rename_i based isBase
  split at decodes
  · rename_i allowed
    cases decodes
    exact ⟨allowed, decodeBase_kind sig.noVersion sig.noMacro isBase⟩
  · cases decodes

/-- What a successful `cli_bm_addpatt` has done. -/
theorem cliBmAddpatt_ok
    {root added : BmRoot}
    {patt : BmPatt}
    {offset : List Char}
    (adds : cliBmAddpatt root patt offset = .ok added) :
    bmMinLength ≤ patt.length ∧ ∃ off, cliCaloff offset root.type = .ok off ∧
        AddsPatt root added (placedPatt root patt off) := by
  have longEnough : bmMinLength ≤ patt.length := by
    by_contra tooShort
    unfold cliBmAddpatt at adds
    rw [if_pos (not_le.mp tooShort)] at adds
    cases adds
  refine ⟨longEnough, ?_⟩
  cases decodes : cliCaloff offset root.type with
  | error code =>
    unfold cliBmAddpatt at adds
    rw [if_neg (not_lt.mpr longEnough), decodes] at adds
    cases adds
  | ok off =>
    obtain ⟨result, addsToo, changes⟩ := cliBmAddpatt_adds longEnough decodes
    rw [adds] at addsToo
    cases addsToo
    exact ⟨off, rfl, changes⟩

theorem offmodeRoot_offRoot
    (target : Nat)
    (filter : Option Prefilter.Filter) :
    OffRoot (offmodeRoot target filter) where
  offmode := rfl
  patterns := rfl
  table := cliBmInit_table _ _
  placed k q isPatt := by cases isPatt

/-- A signature keeps the invariant. -/
theorem OffRoot.add
    {root added : BmRoot}
    (offRoot : OffRoot root)
    (adds : cliBmAddpatt root sig.patt sig.offset = .ok added) :
    OffRoot added ∧ added.type = root.type ∧ added.bmPattab.length = root.bmPattab.length + 1 ∧
      bmMinLength ≤ sig.bytes.length := by
  obtain ⟨longEnough, off, decodes, changes⟩ := cliBmAddpatt_ok adds
  obtain ⟨allowed, noShift, kind⟩ := OffSig.caloff decodes
  have pattab := changes.pattab
  rw [if_pos offRoot.offmode] at pattab
  have holds := @placedPatt_holds sig.patt root off rfl rfl longEnough
  have number : PlacedAs root.type root.bmPattab.length (placedPatt root sig.patt off) := by
    refine ⟨⟨_, holds⟩, allowed, noShift, ?_⟩
    rcases kind with ⟨absolute, same⟩ | ⟨relative, notAbsolute⟩
    · refine .inl ⟨absolute, ?_⟩
      show off.offsetMax =
        if root.bmOffmode = true ∧ ¬ off.offdata.type = .absolute then
          root.bmPatterns
        else off.offsetMin
      rw [if_neg fun ⟨_, differs⟩ => differs absolute, same]
    refine .inr ⟨relative, notAbsolute, ?_⟩
    show (if root.bmOffmode = true ∧ ¬ off.offdata.type = .absolute then
        root.bmPatterns
      else off.offsetMin) = root.bmPattab.length
    rw [if_pos ⟨offRoot.offmode, notAbsolute⟩, offRoot.patterns]
  refine ⟨⟨changes.offmode.trans offRoot.offmode, ?_, ?_, ?_⟩, changes.type, ?_, longEnough⟩
  · rw [changes.patterns, pattab, length_append, offRoot.patterns]
    rfl
  · rw [pattab]
    exact offRoot.table.insert changes (fun p q other same sameToo => same.trans sameToo)
      (chooseBlock_keeps root sig.patt).2.2.2 rfl
  · intro k q isPatt
    rw [changes.type]
    rw [pattab] at isPatt
    rcases lt_or_ge k root.bmPattab.length with isOld | isNew
    · rw [getElem?_append_left isOld] at isPatt
      exact offRoot.placed k q isPatt
    rw [List.getElem?_append_right isNew] at isPatt
    have inside := (List.getElem?_eq_some_iff.mp isPatt).1
    rw [List.length_singleton] at inside
    have here : k = root.bmPattab.length := by omega
    rw [here, Nat.sub_self] at isPatt
    cases isPatt
    rw [here]
    exact number
  · rw [pattab, length_append]
    rfl

/-- All signatures do. -/
theorem cliParseAddAll_ok
    (sigs : List OffSig)
    {root loaded : BmRoot}
    {maxpatlen final : Nat}
    (offRoot : OffRoot root)
    (bound : root.bmPattab = [] ∨ bmMinLength ≤ maxpatlen)
    (loads : cliParseAddAll root maxpatlen sigs = .ok (loaded, final)) :
    OffRoot loaded ∧ (loaded.bmPattab = [] ∨ bmMinLength ≤ final) ∧
      loaded.bmPattab.length = root.bmPattab.length + sigs.length := by
  induction sigs generalizing root loaded maxpatlen final with
  | nil =>
    cases loads
    exact ⟨offRoot, bound, rfl⟩
  | cons sig rest ih =>
    rw [cliParseAddAll] at loads
    cases adds : cliBmAddpatt root sig.patt sig.offset with
    | error code =>
      rw [adds] at loads
      cases loads
    | ok added =>
      rw [adds] at loads
      obtain ⟨addedRoot, -, grows, longEnough⟩ := offRoot.add adds
      obtain ⟨loadedRoot, loadedBound, count⟩ := ih addedRoot (.inr (by omega)) loads
      refine ⟨loadedRoot, loadedBound, ?_⟩
      rw [count, grows, length_cons]
      omega

/-- The header parser was asked for one of the patterns, and failed. -/
def parseFails (file : FileMap) (patts : List BmPatt) : Bool :=
  file.header.isNone && patts.any fun q => q.offdata.isHeader

/-- The place of a relative pattern, as long as no header had to be read in vain. -/
def knownPlace (file : FileMap) (before : List BmPatt) (p : BmPatt) : Nat :=
  if parseFails file before then offNone else relativePlace file p.offdata

/-- The place in a file that the offset of a pattern names. -/
def namedPlace (file : FileMap) (p : BmPatt) : Nat :=
  if p.offdata.type = .absolute then p.offsetMin else relativePlace file p.offdata

/-- The entry of a pattern in the table of a file. -/
def entryOf
    (file : FileMap)
    (p : BmPatt) :
    Nat := (namedPlace file p + p.prefixLength) % 2 ^ 32

/-- The header is missed only by patterns that need it. -/
theorem parseFails_iff
    {file : FileMap}
    {patts : List BmPatt} :
    parseFails file patts = true ↔ file.header = none ∧
      ∃ p ∈ patts, p.offdata.isHeader = true := by
  simp [parseFails]

theorem parseFails_append_singleton
    (file : FileMap)
    (before : List BmPatt)
    (p : BmPatt) :
    parseFails file (before ++ [p]) = true ↔ parseFails file before = true ∨
        (p.offdata.isHeader = true ∧ file.header = none) := by
  unfold parseFails
  cases file.header with
  | none | some exeinfo => simp

/-- `cli_caloff` for a relative pattern, after some others. -/
theorem PlacedAs.caloff
    {file : FileMap}
    {before : List BmPatt}
    {info : TargetInfo}
    (placed : PlacedAs target k p)
    (notAbsolute : p.offdata.type ≠ .absolute)
    (reading : Reading file info)
    (failed : info.status = .failed ↔ parseFails file before = true) :
    ∃ after, cliCaloffRelative file target info p.offdata = (.ok (knownPlace file (before ++ [p]) p,
            knownPlace file (before ++ [p]) p), after) ∧
        Reading file after ∧
        (info.fsize = file.len → after.fsize = file.len) ∧
        (after.status = .failed ↔ parseFails file (before ++ [p]) = true) := by
  obtain ⟨place, after, computes, isPlace, afterReading, size, afterFailed⟩ :=
    cliCaloffRelative_spec reading placed.allowed (placed.relative notAbsolute).1 placed.noShift
  have failedToo : after.status = .failed ↔ parseFails file (before ++ [p]) = true := by
    rw [afterFailed, failed, parseFails_append_singleton]
  refine ⟨after, ?_, afterReading, size, failedToo⟩
  have same : place = knownPlace file (before ++ [p]) p := by
    rw [isPlace, knownPlace]
    simp only [failedToo]
  rw [computes, same]

end LibClamav.Bm
