import LibClamav.ScriptSource

namespace LibClamav.Script

open List

/-!
# What is scanned of a script

The flushes cut a file into segments of whole pages.  Each segment is normalised as if a
text began with it, and from the second flush on the offset counts the bytes that were
kept as well.
-/

variable {text : List UInt8}

/-- The normal form of a text behind a space or not. -/
def norm : Bool → List UInt8 → List UInt8
  | _, [] => []
  | space, c :: text =>
    match charAction c with
    | .skip => norm space text
    | .asWhitespace => if space then norm true text else 0x20 :: norm true text
    | .add32 => (c + 32) :: norm false text
    | .copy => c :: norm false text

/-- Whether the normal form ends with a space. -/
def spaceAfter : Bool → List UInt8 → Bool
  | space, [] => space
  | space, c :: text =>
    match charAction c with
    | .skip => spaceAfter space text
    | .asWhitespace => spaceAfter true text
    | _ => spaceAfter false text

/-- Whether the normal form begins with a space. -/
def startsBlank : List UInt8 → Bool
  | [] => false
  | c :: text =>
    match charAction c with
    | .skip => startsBlank text
    | .asWhitespace => true
    | _ => false

/-- A text is normalised in parts. -/
theorem norm_append
    (text later : List UInt8)
    (space : Bool) :
    norm space (text ++ later) = norm space text ++ norm (spaceAfter space text) later := by
  induction text generalizing space with
  | nil => rfl
  | cons c text ih =>
    rw [cons_append, norm, norm, spaceAfter]
    cases charAction c with
    | skip => exact ih space
    | asWhitespace =>
      dsimp only
      rw [ih true]
      split
      · rfl
      · rfl
    | add32 | copy => exact congrArg _ (ih false)

theorem spaceAfter_append
    (text later : List UInt8)
    (space : Bool) :
    spaceAfter space (text ++ later) = spaceAfter (spaceAfter space text) later := by
  induction text generalizing space with
  | nil => rfl
  | cons c text ih =>
    rw [cons_append, spaceAfter, spaceAfter]
    cases charAction c with
    | skip => exact ih space
    | asWhitespace => exact ih true
    | add32 | copy => exact ih false

theorem length_norm_false
    (text : List UInt8) :
    (norm false text).length =
      (norm true text).length + if startsBlank text then 1 else 0 := by
  induction text with
  | nil => rfl
  | cons c text ih =>
    rw [norm, norm, startsBlank]
    cases charAction c with
    | skip => exact ih
    | asWhitespace | add32 | copy => rfl

/-- Normalising makes no text longer. -/
theorem length_norm_le
    (text : List UInt8)
    (space : Bool) :
    (norm space text).length ≤ text.length := by
  induction text generalizing space with
  | nil => exact Nat.le_refl 0
  | cons c text ih =>
    rw [norm, length_cons]
    cases charAction c with
    | skip => exact Nat.le_succ_of_le (ih space)
    | asWhitespace =>
      dsimp only
      split
      · exact Nat.le_succ_of_le (ih true)
      · exact Nat.succ_le_succ (ih true)
    | add32 | copy => exact Nat.succ_le_succ (ih false)

section

/-- The buffer holds a text, which ends with a space or not. -/
structure Written (state : TextNormState) (text : List UInt8) (space : Bool) : Prop where
  isOut : state.out.take state.outPos = text
  isPos : state.outPos = text.length
  isSpace : state.spaceWritten = space

variable {state : TextNormState} {space : Bool}

/-- A byte is appended to what is written. -/
theorem Written.put
    (written : Written state text space)
    (hasRoom : state.outPos < state.out.length)
    (c : UInt8) :
    Written (state.put c) (text ++ [c]) space where
  isOut := by
    change (state.out.set state.outPos c).take (state.outPos + 1) = text ++ [c]
    rw [take_add_one, take_set_of_le (le_rfl), written.isOut, getElem?_set_self hasRoom]
    rfl
  isPos := by
    rw [length_append, ← written.isPos]
    rfl
  isSpace := written.isSpace

theorem Written.withSpace
    (written : Written state text space)
    (space' : Bool) :
    Written { state with spaceWritten := space' } text space' :=
  ⟨written.isOut, written.isPos, rfl⟩

/-- A byte is written as it is normalised. -/
theorem normalizeByte_written
    (written : Written state text space)
    (hasRoom : state.outPos < state.out.length)
    (c : UInt8) :
    Written (normalizeByte state c) (text ++ norm space [c]) (spaceAfter space [c]) ∧
      (normalizeByte state c).out.length = state.out.length := by
  rw [normalizeByte, norm, spaceAfter]
  cases charAction c with
  | skip =>
    rw [norm, append_nil]
    exact ⟨written, rfl⟩
  | asWhitespace =>
    dsimp only
    rw [written.isSpace]
    cases space with
    | true =>
      refine ⟨?_, rfl⟩
      rw [if_pos rfl, if_pos rfl, norm, append_nil]
      exact written.withSpace true
    | false =>
      refine ⟨(written.put hasRoom 0x20).withSpace true, ?_⟩
      exact length_set
  | add32 =>
    exact ⟨(written.withSpace false).put hasRoom (c + 32), length_set⟩
  | copy =>
    exact ⟨(written.withSpace false).put hasRoom c, length_set⟩

/-- So is a buffer. -/
theorem textNormalizeBuffer_written
    (buf : List UInt8)
    {state : TextNormState}
    {text : List UInt8}
    {space : Bool}
    (written : Written state text space)
    (hasRoom : state.outPos + buf.length ≤ state.out.length) :
    Written (textNormalizeBuffer state buf) (text ++ norm space buf) (spaceAfter space buf) ∧
      (textNormalizeBuffer state buf).out.length = state.out.length := by
  induction buf generalizing state text space with
  | nil =>
    rw [norm, append_nil]
    exact ⟨written, rfl⟩
  | cons c buf ih =>
    rw [length_cons] at hasRoom
    obtain ⟨writtenByte, isLength⟩ := normalizeByte_written written (by omega) c
    have isShort := length_norm_le [c] space
    rw [textNormalizeBuffer, if_pos (by omega)]
    have further := ih writtenByte (by
      rw [isLength, writtenByte.isPos, length_append, ← written.isPos]
      rw [length_singleton] at isShort
      omega)
    rw [← singleton_append, norm_append, spaceAfter_append, ← append_assoc]
    exact ⟨further.1, further.2.trans isLength⟩

theorem normalized_eq (file : List UInt8) : normalized file = norm false file := by
  have written : Written (textNormalizeInit (replicate file.length 0)) [] false := ⟨rfl, rfl, rfl⟩
  have isNorm := textNormalizeBuffer_written file written (by simp [textNormalizeInit])
  exact isNorm.1.isOut

end

section

/--
The segments of a file: pages are added to the first one as long as its normal form and
the next page fit into some room, and to each later one as long as they fit into the
scan buffer.
-/
def segments (pgsz room : Nat) (segment rest : List UInt8) : List (List UInt8) :=
  let len := min pgsz rest.length
  let page := rest.take len
  if len = 0 then
    [segment]
  else if room < (norm false segment).length + len then
    segment :: segments pgsz Ac.scanBuff page (rest.drop len)
  else
    segments pgsz room (segment ++ page) (rest.drop len)
termination_by rest.length
decreasing_by
  all_goals
    rw [length_drop]
    omega

/-- The flushes of some segments, the first one behind bytes that were kept. -/
def flushesOf
    (maxpatlen : Nat)
    (kept : List UInt8)
    (offset : Nat) :
    List (List UInt8) → List Flush
  | [] => []
  | segment :: segments =>
    let bytes := kept ++ norm false segment
    ⟨bytes, offset⟩ :: flushesOf maxpatlen (bytes.drop (bytes.length - maxpatlen))
      ((offset + bytes.length) % 2 ^ 32) segments

variable {pgsz maxpatlen : Nat} (isPage : pgsz ≤ Ac.scanBuff)

/-- The last bytes are kept for the next buffer. -/
theorem carryOver_written
    {state : TextNormState}
    {space : Bool}
    (written : Written state text space)
    (isLong : maxpatlen < state.outPos)
    (fits : state.outPos ≤ state.out.length) :
    Written (carryOver maxpatlen state) (text.drop (text.length - maxpatlen)) false ∧
      (carryOver maxpatlen state).out.length = state.out.length := by
  have isKept : (state.out.drop (state.outPos - maxpatlen)).take maxpatlen =
      text.drop (text.length - maxpatlen) := by
    rw [← written.isPos, ← written.isOut, drop_take]
    congr 1
    omega
  have isOut : (carryOver maxpatlen state).out =
      text.drop (text.length - maxpatlen) ++ state.out.drop maxpatlen := by
    rw [carryOver, if_pos isLong, isKept]
    rfl
  have isLength : (text.drop (text.length - maxpatlen)).length = maxpatlen := by
    rw [length_drop, ← written.isPos]
    omega
  refine ⟨⟨?_, isLength.symm, rfl⟩, ?_⟩
  · rw [isOut]
    exact take_left' isLength
  · rw [isOut, length_append, isLength, length_drop]
    omega

include isPage in
/-- The loop flushes the segments of the file. -/
theorem scanLoop_eq
    {state : TextNormState}
    {kept segment : List UInt8}
    (offset : Nat)
    (rest : List UInt8)
    (written : Written state (kept ++ norm false segment) (spaceAfter false segment))
    (isOutLen : state.out.length = Ac.scanBuff + maxpatlen)
    (isKept : kept.length ≤ maxpatlen)
    (fits : state.outPos ≤ state.out.length) :
    scanLoop (fun _ => false) pgsz maxpatlen state offset rest =
      flushesOf maxpatlen kept offset
        (segments pgsz (Ac.scanBuff + maxpatlen - kept.length) segment rest) := by
  have isPos := written.isPos
  rw [length_append] at isPos
  fun_induction scanLoop (fun _ => false) pgsz maxpatlen state offset rest
      generalizing kept segment with
  | case1 state offset rest len =>
    rename_i isEnd
    rw [segments, if_pos isEnd, flushesOf, ← written.isOut]
    rfl
  | case2 => contradiction
  | case3 state offset rest len page flush isMore flushes =>
    rename_i ih
    have isPageLength : page.length = len := by
      rw [length_take]
      omega
    have isLong : maxpatlen < state.outPos := by omega
    obtain ⟨carried, isCarriedLength⟩ := carryOver_written written isLong fits
    have isCarriedPos : (carryOver maxpatlen state).outPos = maxpatlen := rfl
    obtain ⟨writtenPage, isPageOut⟩ := textNormalizeBuffer_written page carried (by omega)
    have isDropped : ((kept ++ norm false segment).drop
        ((kept ++ norm false segment).length - maxpatlen)).length = maxpatlen := by
      rw [length_drop, ← written.isPos]
      omega
    have isPagePos := writtenPage.isPos
    have isShortNorm := length_norm_le page false
    rw [length_append, isDropped] at isPagePos
    have isFlush : flush = ⟨kept ++ norm false segment, offset⟩ := by rw [← written.isOut]
    rw [segments, if_neg isMore, if_pos (by omega), flushesOf, isFlush,
      ih writtenPage (by omega) (by omega) (by omega) (by omega), isDropped, Nat.add_sub_cancel,
      written.isPos]
  | case4 state offset rest len page isMore =>
    rename_i ih
    have isPageLength : page.length = len := by
      rw [length_take]
      omega
    obtain ⟨writtenPage, isPageOut⟩ := textNormalizeBuffer_written page written (by omega)
    rw [append_assoc, ← norm_append, ← spaceAfter_append] at writtenPage
    have isPagePos := writtenPage.isPos
    have isShortNorm := length_norm_le page (spaceAfter false segment)
    rw [norm_append, length_append, length_append] at isPagePos
    rw [segments, if_neg isMore, if_neg (by omega)]
    exact ih writtenPage (by omega) isKept (by omega) (by rw [norm_append, length_append]; omega)

end

/-- No white space of the text is on both sides of the end of a segment. -/
def Unsplit : List (List UInt8) → Prop
  | [] => True
  | segment :: segments =>
    ¬ (spaceAfter false segment = true ∧ startsBlank segments.flatten = true) ∧ Unsplit segments

/-- How often white space is split. -/
def splits : List (List UInt8) → Nat
  | [] => 0
  | segment :: segments =>
    (if spaceAfter false segment = true ∧ startsBlank segments.flatten = true then 1 else 0) +
      splits segments

/-- No blank run is split exactly if no flush falls in one. -/
theorem splits_eq_zero_iff
    (segments : List (List UInt8)) :
    splits segments = 0 ↔ Unsplit segments := by
  induction segments with
  | nil => exact iff_of_true rfl trivial
  | cons segment segments ih =>
    rw [splits, Unsplit, Nat.add_eq_zero_iff, ih]
    split
    · exact iff_of_false (fun isZero => absurd isZero.1 (by decide)) fun unsplit => unsplit.1 ‹_›
    · exact and_congr_left fun _ => iff_of_true rfl ‹_›

theorem length_norm_segments
    (segments : List (List UInt8)) :
    (segments.map (norm false)).flatten.length =
      (norm false segments.flatten).length + splits segments := by
  induction segments with
  | nil => rfl
  | cons segment segments ih =>
    rw [map_cons, flatten_cons, flatten_cons, norm_append, length_append, length_append, ih, splits]
    cases spaceAfter false segment with
    | false =>
      rw [if_neg fun isSplit => Bool.false_ne_true isSplit.1]
      omega
    | true =>
      rw [length_norm_false segments.flatten]
      split
      · rw [if_pos ⟨rfl, ‹_›⟩]
        omega
      · rw [if_neg fun isSplit => ‹¬ _› isSplit.2]
        omega

theorem norm_of_startsBlank
    (notBlank : ¬ startsBlank text = true)
    (space : Bool) :
    norm space text = norm false text := by
  induction text generalizing space with
  | nil => rfl
  | cons c text ih =>
    rw [startsBlank] at notBlank
    rw [norm, norm]
    cases isAction : charAction c with
    | skip =>
      rw [isAction] at notBlank
      exact ih notBlank space
    | asWhitespace =>
      rw [isAction] at notBlank
      exact absurd rfl notBlank
    | add32 | copy => rfl

/-- The segments are the normalised file if no run is split. -/
theorem norm_segments
    (segments : List (List UInt8)) :
    (segments.map (norm false)).flatten = norm false segments.flatten ↔ Unsplit segments := by
  constructor
  · intro isSame
    have isLength := length_norm_segments segments
    rw [isSame] at isLength
    exact (splits_eq_zero_iff segments).mp (by omega)
  induction segments with
  | nil => exact fun _ => rfl
  | cons segment segments ih =>
    intro unsplit
    obtain ⟨notSplit, unsplit⟩ := unsplit
    rw [map_cons, flatten_cons, flatten_cons, norm_append, ih unsplit]
    congr 1
    cases isSpace : spaceAfter false segment with
    | false => rfl
    | true => exact (norm_of_startsBlank (fun isBlank => notSplit ⟨isSpace, isBlank⟩) true).symm

/-- The segments are the whole file. -/
theorem segments_flatten
    (pgsz : Nat)
    (rest : List UInt8)
    (room : Nat)
    (segment : List UInt8) :
    ∃ first others, segments pgsz room segment rest = first :: others ∧
      (0 < pgsz → first ++ others.flatten = segment ++ rest) := by
  fun_induction segments pgsz room segment rest with
  | case1 room segment rest len isEnd =>
    refine ⟨segment, [], rfl, fun isPositive => ?_⟩
    have isEmpty : rest = [] := eq_nil_of_length_eq_zero (by omega)
    rw [isEmpty]
    rfl
  | case2 room segment rest len page _ _ ih =>
    obtain ⟨first, others, isSegments, isFlatten⟩ := ih
    refine ⟨segment, first :: others, by rw [isSegments], fun isPositive => ?_⟩
    rw [flatten_cons, isFlatten isPositive, take_append_drop]
  | case3 room segment rest len page _ _ ih =>
    obtain ⟨first, others, isSegments, isFlatten⟩ := ih
    refine ⟨first, others, isSegments, fun isPositive => ?_⟩
    rw [isFlatten isPositive, append_assoc, take_append_drop]

/-- What each flush adds to the ones before. -/
def fresh (maxpatlen : Nat) : List Flush → List (List UInt8)
  | [] => []
  | flush :: flushes => flush.bytes :: flushes.map fun flush => flush.bytes.drop maxpatlen

/-- The flushes make up the normal form of a file, each at the offset of its first byte. -/
structure Faithful (maxpatlen : Nat) (file : List UInt8) (flushes : List Flush) : Prop where
  isText : (fresh maxpatlen flushes).flatten = normalized file
  isOffset : ∀ k flush, flushes[k]? = some flush → flush.offset + (if k = 0 then 0 else maxpatlen) =
      ((fresh maxpatlen flushes).take k).flatten.length

/-- The segments of the flushes of a file. -/
def fileSegments (pgsz maxpatlen : Nat) (file : List UInt8) : List (List UInt8) :=
  segments pgsz (Ac.scanBuff + maxpatlen) [] file

/-- There is only one flush, or nothing is kept and no white space is split. -/
def FlushesWell (pgsz maxpatlen : Nat) (file : List UInt8) : Prop :=
  (fileSegments pgsz maxpatlen file).length = 1 ∨
    maxpatlen = 0 ∧ Unsplit (fileSegments pgsz maxpatlen file)

variable {pgsz maxpatlen : Nat} {file : List UInt8}

/-- The flushes of a file that can be read. -/
theorem cliScanscript_eq
    (isPage : pgsz ≤ Ac.scanBuff)
    (isSmall : file.length ≤ 5242880)
    (garbage : Nat → UInt8) :
    cliScanscript (fun _ => false) pgsz maxpatlen garbage file =
      flushesOf maxpatlen [] 0 (fileSegments pgsz maxpatlen file) := by
  have isLength : ((range (Ac.scanBuff + maxpatlen)).map garbage).length =
      Ac.scanBuff + maxpatlen := by
    rw [length_map, length_range]
  rw [cliScanscript, if_neg (not_lt.mpr isSmall)]
  exact scanLoop_eq isPage 0 file ⟨rfl, rfl, rfl⟩ isLength (Nat.zero_le _) (Nat.zero_le _)

/-- Bytes that are kept are flushed twice. -/
theorem not_faithful_of_kept
    {first second : List UInt8}
    {others : List (List UInt8)}
    (isSmall : first.length ≤ 5242880)
    (isKept : maxpatlen ≠ 0) :
    ¬ Faithful maxpatlen file (flushesOf maxpatlen [] 0 (first :: second :: others)) := by
  intro faithful
  have isOffset := faithful.isOffset 1 _ rfl
  have isShort := length_norm_le first false
  rw [flushesOf, flushesOf, fresh] at isOffset
  simp only [nil_append, zero_add, Nat.one_ne_zero, if_false, map_cons,
    take_succ_cons, take_zero, flatten_cons, flatten_nil, append_nil,
    Nat.mod_eq_of_lt (show (norm false first).length < 2 ^ 32 by omega)] at isOffset
  omega

theorem flushesOf_zero
    (segments : List (List UInt8))
    (offset : Nat)
    (isSmall : offset + (segments.map (norm false)).flatten.length < 2 ^ 32) :
    (flushesOf 0 [] offset segments).map Flush.bytes = segments.map (norm false) ∧
      ∀ k flush, (flushesOf 0 [] offset segments)[k]? = some flush →
        flush.offset = offset + ((segments.map (norm false)).take k).flatten.length := by
  induction segments generalizing offset with
  | nil =>
    refine ⟨rfl, fun k flush isFlush => ?_⟩
    rw [flushesOf, getElem?_nil] at isFlush
    cases isFlush
  | cons segment segments ih =>
    rw [map_cons, flatten_cons, length_append] at isSmall
    have isMod : (offset + (norm false segment).length) % 2 ^ 32 =
        offset + (norm false segment).length := Nat.mod_eq_of_lt (by omega)
    obtain ⟨isBytes, isOffset⟩ := ih (offset + (norm false segment).length) (by omega)
    rw [flushesOf, nil_append, Nat.sub_zero, drop_length, isMod]
    refine ⟨by rw [map_cons, isBytes, map_cons], fun k flush isFlush => ?_⟩
    cases k with
    | zero =>
      rw [getElem?_cons_zero] at isFlush
      cases isFlush
      rfl
    | succ k =>
      rw [getElem?_cons_succ] at isFlush
      rw [isOffset k flush isFlush, map_cons, take_succ_cons, flatten_cons,
        length_append, add_assoc]

theorem fresh_zero (flushes : List Flush) : fresh 0 flushes = flushes.map Flush.bytes := by
  cases flushes with
  | nil | cons flush flushes => rfl

/-- Without kept bytes the flushes are faithful if no run is split. -/
theorem faithful_zero_iff
    {segments : List (List UInt8)}
    (isFile : segments.flatten = file)
    (isSmall : (segments.map (norm false)).flatten.length < 2 ^ 32) :
    Faithful 0 file (flushesOf 0 [] 0 segments) ↔ Unsplit segments := by
  obtain ⟨isBytes, isOffset⟩ := flushesOf_zero segments 0 (by omega)
  rw [← norm_segments, isFile, ← normalized_eq]
  constructor
  · intro faithful
    rw [← isBytes, ← fresh_zero]
    exact faithful.isText
  intro isText
  refine ⟨by rw [fresh_zero, isBytes, isText], fun k flush isFlush => ?_⟩
  rw [isOffset k flush isFlush, fresh_zero, isBytes, ite_self]
  omega

theorem length_map_norm_le
    (segments : List (List UInt8)) :
    (segments.map (norm false)).flatten.length ≤ segments.flatten.length := by
  induction segments with
  | nil => exact Nat.le_refl 0
  | cons segment segments ih =>
    rw [map_cons, flatten_cons, flatten_cons, length_append, length_append]
    exact Nat.add_le_add (length_norm_le segment false) ih

/--
What is scanned of a file of at most 5 MB is its normal form with the right offsets
exactly if there is one flush, or nothing is kept and no white space is split.
-/
theorem scanscript_faithful_iff
    (pgsz maxpatlen : Nat)
    (garbage : Nat → UInt8)
    (file : List UInt8)
    (isPositive : 0 < pgsz)
    (isPage : pgsz ≤ Ac.scanBuff)
    (isSmall : file.length ≤ 5242880) :
    Faithful maxpatlen file (cliScanscript (fun _ => false) pgsz maxpatlen garbage file) ↔
      FlushesWell pgsz maxpatlen file := by
  rw [cliScanscript_eq isPage isSmall, FlushesWell]
  obtain ⟨first, others, isSegments, isFlatten⟩ :=
    segments_flatten pgsz file (Ac.scanBuff + maxpatlen) []
  have isFile : first ++ others.flatten = file := isFlatten isPositive
  have isLength := congrArg length isFile
  rw [length_append] at isLength
  rw [fileSegments, isSegments]
  cases others with
  | nil =>
    refine iff_of_true ⟨?_, ?_⟩ (.inl rfl)
    · rw [flushesOf, flushesOf, fresh, normalized_eq, ← isFile]
      simp
    intro k flush isFlush
    rw [flushesOf, flushesOf] at isFlush
    cases k with
    | zero =>
      cases isFlush
      rfl
    | succ k => cases isFlush
  | cons second others =>
    rw [or_iff_right (by simp)]
    by_cases isKept : maxpatlen = 0
    · have isShort := length_map_norm_le (first :: second :: others)
      rw [flatten_cons, isFile] at isShort
      rw [isKept, and_iff_right rfl]
      exact faithful_zero_iff isFile (by omega)
    · exact iff_of_false (not_faithful_of_kept (by omega) isKept) fun flushesWell =>
        isKept flushesWell.1

theorem length_first_le
    (pgsz room : Nat)
    (rest segment : List UInt8)
    (fits : (norm false segment).length ≤ room) :
    ∀ first ∈ (segments pgsz room segment rest).head?, (norm false first).length ≤ room := by
  fun_induction segments pgsz room segment rest with
  | case1 | case2 =>
    rintro first ⟨⟩
    exact fits
  | case3 room segment rest len page _ _ ih =>
    apply ih
    have isShort := length_norm_le page (spaceAfter false segment)
    rw [length_take] at isShort
    rw [norm_append, length_append]
    omega

theorem norm_replicate_a (n : Nat) : norm false (replicate n 0x61) = replicate n 0x61 := by
  induction n with
  | zero => rfl
  | succ n ih =>
    rw [replicate_succ, norm, show charAction 0x61 = .copy by decide]
    exact congrArg _ ih

/-- A file of 200000 letters. -/
def letters : List UInt8 := replicate 200000 0x61

theorem letters_small : letters.length ≤ 5242880 := by
  rw [letters, length_replicate]
  decide

/-- The letters, in 49 pages, need more than one flush. -/
theorem fileSegments_letters
    (few : maxpatlen ≤ 100) :
    ∃ first second others, fileSegments 4096 maxpatlen letters = first :: second :: others ∧
      (first :: second :: others).flatten = letters := by
  obtain ⟨first, others, isSegments, isFlatten⟩ :=
    segments_flatten 4096 letters (Ac.scanBuff + maxpatlen) []
  have isFile : first ++ others.flatten = letters := isFlatten (by decide)
  have fits := length_first_le 4096 (Ac.scanBuff + maxpatlen) letters [] (Nat.zero_le _) first
    (by rw [isSegments]; rfl)
  cases others with
  | nil =>
    rw [flatten_nil, append_nil] at isFile
    rw [isFile, letters, norm_replicate_a, length_replicate, Ac.scanBuff] at fits
    omega
  | cons second others => exact ⟨first, second, others, isSegments, isFile⟩

/-- Without bytes that are kept, the flushes of the letters are their normal form. -/
theorem scanscript_faithful_letters :
    1 < (fileSegments 4096 0 letters).length ∧
      Faithful 0 letters (cliScanscript (fun _ => false) 4096 0 (fun _ => 0) letters) := by
  obtain ⟨first, second, others, isSegments, isFile⟩ := fileSegments_letters (Nat.zero_le 100)
  have isNorm : ∀ segment ∈ first :: second :: others, norm false segment = segment := by
    intro segment isSegment
    have isLetters : segment = replicate segment.length 0x61 := by
      refine eq_replicate_of_mem fun c isMember => ?_
      have inFile : c ∈ letters := isFile ▸ mem_flatten_of_mem isSegment isMember
      exact eq_of_mem_replicate inFile
    rw [isLetters, norm_replicate_a]
  refine ⟨by simp [isSegments], (scanscript_faithful_iff 4096 0 (fun _ => 0) letters (by decide)
    (by decide) letters_small).mpr (.inr ⟨rfl, ?_⟩)⟩
  rw [isSegments, ← norm_segments, map_congr_left isNorm, map_id', isFile, letters,
    norm_replicate_a]

/--
The second flush of 200000 letters begins with the 100 bytes that were kept, but has the
offset of the first byte behind them.
-/
theorem scanscript_shifted :
    ¬ Faithful 100 (replicate 200000 0x61)
      (cliScanscript (fun _ => false) 4096 100 (fun _ => 0) (replicate 200000 0x61)) := by
  obtain ⟨first, second, others, isSegments, isFile⟩ := fileSegments_letters (Nat.le_refl 100)
  have isLength := congrArg length isFile
  rw [flatten_cons, length_append, letters, length_replicate] at isLength
  rw [← letters, cliScanscript_eq (by decide) letters_small, isSegments]
  exact not_faithful_of_kept (by omega) (by decide)

end LibClamav.Script
