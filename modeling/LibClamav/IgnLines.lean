import LibClamav.LdbSource
import Mathlib.Data.List.DropRight
import Mathlib.Data.List.TakeDrop

namespace LibClamav.Db

open Ac List Option

/-!
# Lines of ignored signatures

`cli_loadign` sets `hash` only for lines with two fields and never clears it.  From then
on it points into the buffer of the lines, so that later lines without a hash are
rejected or get one.
-/

/-- An entry of `engine->ignored`: the name, and the hash in `virname`. -/
structure Ignored where
  pattern : List Char
  virname : Option (List UInt8)
  deriving Repr, DecidableEq

/-- The buffer of the lines, and `hash` as a place in it. -/
structure IgnState where
  buffer : List Char
  hash : Option Nat

/-- A line up to its first zero -/
def lineString (line : List Char) : List Char := line.takeWhile (· != '\x00')

/-- The line after `cli_chomp` -/
def lineText (line : List Char) : List Char :=
  (lineString line).rdropWhile fun c => c == '\n' || c == '\r'

/-- The fields of a line; a fourth one is an error. -/
def lineTokens (line : List Char) : List (List Char) := cliStrtokenize ':' 4 (lineText line)

/-- The buffer after a line: the fields, each with its terminator, and what stands behind. -/
def lineBuffer (buffer line : List Char) : List Char :=
  ((lineTokens line).map (· ++ ['\x00'])).flatten ++
    (replicate ((lineString line).length - (lineText line).length) '\x00' ++
      (line ++ '\x00' :: buffer.drop (line.length + 1)).drop (lineString line).length).tail

def signameOf : List (List Char) → Option (List Char)
  | [signame] | [signame, _] | [_, _, signame] => some signame
  | _ => none

/-- `virname` of 32 digits; `none` if they are malformed. -/
def digestOf (digits : List Char) : Option (Option (List UInt8)) :=
  if digits.length ≠ 32 then none else (cliHex2str digits).map some

/-- The entry for a name, `none` for `CL_EMALFDB`; `cli_bm_addpatt` rejects short names. -/
def newIgnored
    (virname : Option (Option (List UInt8)))
    (signame : List Char) :
    Option Ignored :=
  if signame = [] then none
  else virname.bind fun virname => if signame.length < 3 then none else some ⟨signame, virname⟩

/-- `hash` after a line with these fields. -/
def nextHash (hash : Option Nat) : List (List Char) → Option Nat
  | [signame, _] => some (signame.length + 1)
  | _ => hash

def virnameAt (buffer : List Char) : Option Nat → Option (Option (List UInt8))
  | none => some none
  | some hash => digestOf ((buffer.drop hash).takeWhile (· != '\x00'))

/-- One round of `cli_loadign` -/
def loadignLine (state : IgnState) (line : List Char) : Option Ignored × IgnState :=
  let buffer := lineBuffer state.buffer line
  let hash := nextHash state.hash (lineTokens line)
  ((signameOf (lineTokens line)).bind (newIgnored (virnameAt buffer hash)), ⟨buffer, hash⟩)

/-- The effects of the lines up to the first error. -/
def cliLoadign : IgnState → List (List Char) → List (Option Ignored)
  | _, [] => []
  | state, line :: rest =>
    match loadignLine state line with
    | (none, _) => [none]
    | (some new, later) => some new :: cliLoadign later rest

/-- The effect of a line that is loaded alone. -/
def loadedAlone (line : List Char) : Option Ignored := (loadignLine ⟨[], none⟩ line).1

def hasHash (line : List Char) : Bool := (lineTokens line).length == 2

/-- `virname` of a line alone -/
def lineDigest : List (List Char) → Option (Option (List UInt8))
  | [_, hash] => digestOf hash
  | _ => some none

/-- At most three fields, a name of three characters and a hash of 32 digits if there is one. -/
def wellFormed (line : List Char) : Bool :=
  (signameOf (lineTokens line)).any (3 ≤ ·.length) && (lineDigest (lineTokens line)).isSome

theorem mem_of_mem_cliStrtokenize
    {delim : Char}
    (count : Nat) :
    ∀ {text token : List Char},
      token ∈ cliStrtokenize delim count text → ∀ c ∈ token, c ∈ text := by
  induction count with
  | zero => exact nofun
  | succ count ih =>
    intro text token mem c inToken
    have isText := takeWhile_append_dropWhile (p := (· ≠ delim)) (l := text)
    rw [cliStrtokenize, cutAt, span_eq_takeWhile_dropWhile] at mem
    rw [← isText, mem_append]
    cases isRest : text.dropWhile (· ≠ delim) with
    | nil =>
      rw [isRest] at mem
      exact .inl (mem_singleton.mp mem ▸ inToken)
    | cons d rest =>
      rw [isRest] at mem
      rcases mem_cons.mp mem with rfl | later
      · exact .inl inToken
      · exact .inr (mem_cons_of_mem _ (ih later c inToken))

theorem newIgnored_eq
    (virname : Option (Option (List UInt8)))
    (signame : List Char) :
    newIgnored virname signame =
      if 3 ≤ signame.length then virname.map (Ignored.mk signame) else none := by
  by_cases long : 3 ≤ signame.length
  · have nonempty : signame ≠ [] := ne_nil_of_length_pos (by omega)
    rw [newIgnored, if_neg nonempty, if_pos long]
    cases virname with
    | none => rfl
    | some virname => exact if_neg (Nat.not_lt.mpr long)
  · simp [newIgnored, long, Nat.not_le.mp long]

variable {line : List Char} (state : IgnState)

/-- A line with a digest. -/
theorem loadignLine_two
    {signame hash : List Char}
    (isTokens : lineTokens line = [signame, hash]) :
    (loadignLine state line).1 = newIgnored (digestOf hash) signame ∧
      (loadignLine state line).2.hash ≠ none := by
  have passes : ∀ c ∈ hash, (c != '\x00') = true := by
    intro c mem
    have inText : c ∈ lineText line :=
      mem_of_mem_cliStrtokenize 4 (show hash ∈ lineTokens line by simp [isTokens]) c mem
    exact mem_takeWhile_imp (p := (· != '\x00')) (( rdropWhile_prefix _ _).subset inText)
  obtain ⟨more, isBuffer⟩ : ∃ more, (lineBuffer state.buffer line).drop (signame.length + 1) =
      hash ++ '\x00' :: more := by
    simp [lineBuffer, isTokens]
  simp only [loadignLine, isTokens, signameOf, nextHash, virnameAt, isBuffer,
    takeWhile_append_of_pos passes]
  simp

/-- Any other line depends on the digest before it. -/
theorem loadignLine_other
    (noHash : ∀ signame hash, lineTokens line ≠ [signame, hash]) :
    ∃ virname, (virname = some none ↔ state.hash = none) ∧
      (loadignLine state line).1 = (signameOf (lineTokens line)).bind (newIgnored virname) ∧
      (loadignLine state line).2.hash = state.hash := by
  have isNext : nextHash state.hash (lineTokens line) = state.hash := by
    unfold nextHash
    split
    · exact absurd ‹_› (noHash _ _)
    · rfl
  refine ⟨virnameAt (lineBuffer state.buffer line) state.hash, ?_, by rw [loadignLine, isNext],
    isNext⟩
  cases state.hash <;> simp [virnameAt, digestOf]

/-- A line has another effect than alone if it is well-formed and the hash is an earlier one. -/
theorem loadignLine_spec
    (line : List Char) :
    ((loadignLine state line).1 = loadedAlone line ↔
        (wellFormed line = true → state.hash ≠ none → hasHash line = true)) ∧
      ((loadignLine state line).2.hash = none ↔ hasHash line = false ∧ state.hash = none) ∧
      (loadedAlone line).isSome = wellFormed line := by
  by_cases isHash : ∃ signame hash, lineTokens line = [signame, hash]
  · obtain ⟨signame, hash, isTokens⟩ := isHash
    have isLoaded := loadignLine_two state isTokens
    rw [loadedAlone, isLoaded.1, (loadignLine_two ⟨[], none⟩ isTokens).1, newIgnored_eq]
    refine ⟨by simp [hasHash, isTokens], by simp [hasHash, isTokens, isLoaded.2], ?_⟩
    by_cases long : 3 ≤ signame.length <;> simp [wellFormed, isTokens, signameOf, lineDigest, long]
  · have noHash : ∀ signame hash, lineTokens line ≠ [signame, hash] := by simpa using isHash
    have isPlain : hasHash line = false := by simpa [hasHash, length_eq_two] using noHash
    have isDigest : lineDigest (lineTokens line) = some none := by
      unfold lineDigest
      split
      · exact absurd ‹_› (noHash _ _)
      · rfl
    obtain ⟨virname, isVirname, isLoaded, isNext⟩ := loadignLine_other state noHash
    obtain ⟨_, isAlone, loadsAlone, -⟩ := loadignLine_other ⟨[], none⟩ noHash
    rw [loadedAlone, isLoaded, loadsAlone, isAlone.mpr rfl, isNext, isPlain, wellFormed, isDigest]
    cases signameOf (lineTokens line) with
    | none => simp
    | some signame =>
      simp only [bind_some, newIgnored_eq]
      by_cases long : 3 ≤ signame.length
      · cases virname <;> simp_all
      · simp [long]

/-- No line takes the digest of another if those without one come first. -/
theorem cliLoadign_isPrefix_iff
    (lines : List (List Char)) :
    ∀ state,
      cliLoadign state lines <+: lines.map loadedAlone ↔
        (lines.takeWhile wellFormed).Pairwise (fun first second => hasHash first → hasHash second) ∧
          (state.hash ≠ none → ∀ line ∈ lines.takeWhile wellFormed, hasHash line) := by
  induction lines with
  | nil => simp [cliLoadign]
  | cons line rest ih =>
    intro state
    obtain ⟨isHead, isNext, isSome⟩ := loadignLine_spec state line
    rw [cliLoadign, map_cons]
    cases isLoaded : loadignLine state line with
    | mk effect next =>
    rw [isLoaded] at isHead isNext
    simp only at isHead isNext
    cases isWell : wellFormed line with
    | false =>
      rw [isWell] at isHead isSome
      rw [takeWhile_cons_of_neg (by simp [isWell]), isHead.mpr nofun]
      simp_all
    | true =>
      rw [takeWhile_cons_of_pos isWell, pairwise_cons]
      cases effect with
      | none =>
        have differs : none ≠ loadedAlone line := by
          rintro isNone
          simp [← isNone, isWell] at isSome
        have := mt isHead.mpr differs
        simp_all
      | some new =>
        simp only [cons_prefix_cons, ih, isHead, Ne, isNext]
        cases isHash : hasHash line <;> simp_all <;> tauto

/--
Every line of a file has the effect that it has alone, up to the first error, if and only if
no well-formed line without a hash comes behind one with a hash.
-/
theorem lines_independent_iff
    (buffer : List Char)
    (lines : List (List Char)) :
    cliLoadign ⟨buffer, none⟩ lines <+: lines.map loadedAlone ↔
      (lines.takeWhile wellFormed).Pairwise fun first second => hasHash first → hasHash second := by
  rw [cliLoadign_isPrefix_iff]
  simp

/-- The second line gets the hash of the first, which stands behind it in the buffer. -/
theorem hash_kept_for_next_line :
    cliLoadign ⟨[], none⟩ ["ABC:00112233445566778899aabbccddeeff".toList, "DEF".toList] =
      [some ⟨"ABC".toList, cliHex2str "00112233445566778899aabbccddeeff".toList⟩,
        some ⟨"DEF".toList, cliHex2str "00112233445566778899aabbccddeeff".toList⟩] ∧
      loadedAlone "DEF".toList = some ⟨"DEF".toList, none⟩ := by
  decide +kernel

end LibClamav.Db
