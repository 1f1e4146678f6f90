import LibClamav.AcLists

namespace LibClamav.Ac

open List

/-!
# What stands around a pattern

The boundary flags and the anchors of a pattern speak of the bytes before and behind its
text.  Any bytes can stand around the text of a plain pattern, so that its flags and the
ranges of its anchors can be told from the places that are accepted.
-/

variable {buffer : List UInt8} {specialTable : List Special}

section

variable {p : PatChar} {chars : List PatChar}

/-- The bytes that a character stands for, unless it is a special element. -/
def PatChar.accepts (p : PatChar) (b : UInt8) : Bool :=
  match p with
  | .char c => c == b
  | .ignore => true
  | .special => false
  | .nibbleHigh c => c.toNat / 16 == b.toNat / 16
  | .nibbleLow c => c.toNat % 16 == b.toNat % 16

/-- A byte that a character stands for. -/
def PatChar.sample : PatChar → UInt8
  | .char c | .nibbleHigh c | .nibbleLow c => c
  | .ignore | .special => 0

/-- A character that is no special element compares one byte. -/
theorem acMatchChar_of_ne_special
    (notSpecial : p ≠ .special)
    (bp specialcnt : Nat) :
    acMatchChar buffer specialTable p bp specialcnt =
      ⟨p.accepts (byteAt buffer bp), bp, specialcnt⟩ := by
  cases p with
  | special => exact absurd rfl notSpecial
  | char c | ignore | nibbleHigh c | nibbleLow c => rfl

/-- A character accepts its sample. -/
theorem accepts_sample (notSpecial : p ≠ .special) : p.accepts p.sample = true := by
  cases p with
  | special => exact absurd rfl notSpecial
  | char c | ignore | nibbleHigh c | nibbleLow c => simp [PatChar.accepts, PatChar.sample]

/-- A character that counts does not stand for all bytes. -/
theorem not_accepts_sample_succ
    (counts : p.hasIgnoreBit = false) :
    p.accepts (p.sample + 1) = false := by
  cases p with
  | special => rfl
  | ignore | nibbleHigh c => cases counts
  | char c | nibbleLow c =>
    have isSucc : (c + 1).toNat = (c.toNat + 1) % 256 := UInt8.toNat_add c 1
    simp only [PatChar.accepts, PatChar.sample, beq_eq_false_iff_ne, ne_eq, ← UInt8.toNat_inj]
    omega

/-- The loop over a pattern goes through bytes that its characters stand for. -/
theorem matchPattern_sample
    (noSpecial : .special ∉ chars)
    (front behind : List UInt8)
    (specialcnt : Nat) :
    matchPattern (front ++ chars.map PatChar.sample ++ behind) specialTable chars front.length
      specialcnt = some (front.length + chars.length, specialcnt) := by
  induction chars generalizing front with
  | nil => rfl
  | cons p rest inductionHypothesis =>
    obtain ⟨notSpecial, restPlain⟩ := not_or.mp (mt mem_cons.mpr noSpecial)
    have later := inductionHypothesis restPlain (front ++ [p.sample])
    have isByte : byteAt (front ++ (p :: rest).map PatChar.sample ++ behind) front.length =
        p.sample := by
      simp [byteAt]
    rw [matchPattern, if_pos (by simp), acMatchChar_of_ne_special (Ne.symm notSpecial)]
    dsimp only
    rw [isByte, if_pos (accepts_sample (Ne.symm notSpecial))]
    simpa [Nat.add_left_comm, Nat.add_comm] using later

/-- The loop over a prefix does so too. -/
theorem matchPrefix_sample
    (noSpecial : .special ∉ chars)
    (front behind : List UInt8)
    (specialcnt : Nat) :
    matchPrefix (front ++ chars.map PatChar.sample ++ behind) specialTable chars front.length
      specialcnt = some specialcnt := by
  induction chars generalizing front with
  | nil => rfl
  | cons p rest inductionHypothesis =>
    obtain ⟨notSpecial, restPlain⟩ := not_or.mp (mt mem_cons.mpr noSpecial)
    have later := inductionHypothesis restPlain (front ++ [p.sample])
    have isByte : byteAt (front ++ (p :: rest).map PatChar.sample ++ behind) front.length =
        p.sample := by
      simp [byteAt]
    rw [matchPrefix, acMatchChar_of_ne_special (Ne.symm notSpecial)]
    dsimp only
    rw [isByte, if_pos (accepts_sample (Ne.symm notSpecial))]
    simpa using later

end

section

variable {anchor : Anchor}

/-- The right anchor is searched for in as many bytes as it has tries. -/
theorem anchorRightLoop_isSome_iff
    {ch : PatChar}
    (notSpecial : ch ≠ .special)
    (tries bp specialcnt : Nat) :
    (anchorRightLoop buffer specialTable ch tries bp specialcnt).isSome ↔
      ∃ i < tries, bp + i < buffer.length ∧ ch.accepts (byteAt buffer (bp + i)) := by
  induction tries generalizing bp with
  | zero => simp [anchorRightLoop]
  | succ tries inductionHypothesis =>
    rw [anchorRightLoop, Nat.exists_lt_succ_left, acMatchChar_of_ne_special notSpecial]
    dsimp only
    split_ifs with inside isByte
    · simp [inside, isByte]
    · rw [inductionHypothesis]
      simp [isByte, Nat.add_assoc, Nat.add_comm 1]
    · simp only [Option.isSome_none, Bool.false_eq_true, false_iff, not_or, not_exists, not_and]
      exact ⟨fun inside' => absurd inside' inside, fun i _ inside' => absurd inside' (by omega)⟩

/-- The left anchor is searched for down to the start of the buffer. -/
theorem anchorLeftLoop_iff
    {ch : PatChar}
    (notSpecial : ch ≠ .special)
    (tries bp specialcnt : Nat) :
    anchorLeftLoop buffer specialTable ch tries bp specialcnt ↔
      ∃ i < tries, i ≤ bp ∧ ch.accepts (byteAt buffer (bp - i)) := by
  induction tries generalizing bp with
  | zero => simp [anchorLeftLoop]
  | succ tries inductionHypothesis =>
    rw [anchorLeftLoop, Nat.exists_lt_succ_left, acMatchChar_of_ne_special notSpecial]
    dsimp only
    split_ifs with isByte isFirst
    · simp [isByte]
    · subst isFirst
      simp [isByte]
    · rw [inductionHypothesis]
      have shifted (i : Nat) : bp - 1 - i = bp - (i + 1) := by omega
      have inside (i : Nat) : i ≤ bp - 1 ↔ i + 1 ≤ bp := by omega
      simp [isByte, shifted, inside]

/-- An anchor that is no special element is found whatever was counted before. -/
theorem checkAnchorLeft_count
    {anchor : Anchor}
    (notSpecial : anchor.ch ≠ .special)
    (buffer : List UInt8)
    (specialTable : List Special)
    (start specialcnt other : Nat) :
    checkAnchorLeft buffer specialTable anchor start specialcnt =
      checkAnchorLeft buffer specialTable anchor start other := by
  unfold checkAnchorLeft
  rw [Bool.eq_iff_iff]
  split_ifs
  · rfl
  · rfl
  · rfl
  · rw [anchorLeftLoop_iff notSpecial, anchorLeftLoop_iff notSpecial]

/-- Some byte in the range of an anchor, seen from its pattern, is one that it stands for. -/
def Anchor.Finds (anchor : Anchor) (length : Nat) (byte : Nat → UInt8) : Prop :=
  anchor.ch.hasIgnoreBit = true ∨
    ∃ d, anchor.mindist ≤ d ∧ d ≤ anchor.maxdist ∧ d < length ∧ anchor.ch.accepts (byte d)

/-- The right anchor is found within its range. -/
theorem checkAnchorRight_isSome_iff
    (notSpecial : anchor.ch ≠ .special)
    (range : anchor.mindist ≤ anchor.maxdist)
    (bp specialcnt : Nat) :
    (checkAnchorRight buffer specialTable anchor bp specialcnt).isSome ↔
      anchor.Finds (buffer.length - bp) fun d => byteAt buffer (bp + d) := by
  rw [checkAnchorRight, Anchor.Finds]
  split_ifs with ignored
  · simp only [Option.isSome_some, true_iff]
    exact .inl (ignored.resolve_right (Nat.not_lt.mpr range))
  rw [anchorRightLoop_isSome_iff notSpecial, or_iff_right (not_or.mp ignored).1]
  constructor
  · rintro ⟨i, isTry, inside, isByte⟩
    exact ⟨anchor.mindist + i, by omega, by omega, by omega, Nat.add_assoc .. ▸ isByte⟩
  · rintro ⟨d, atLeast, atMost, inside, isByte⟩
    refine ⟨d - anchor.mindist, by omega, by omega, ?_⟩
    rwa [Nat.add_assoc, Nat.add_sub_cancel' atLeast]

/-- So is the left anchor. -/
theorem checkAnchorLeft_iff
    (notSpecial : anchor.ch ≠ .special)
    (range : anchor.mindist ≤ anchor.maxdist)
    (start specialcnt : Nat) :
    checkAnchorLeft buffer specialTable anchor start specialcnt ↔
      anchor.Finds start fun d => byteAt buffer (start - (d + 1)) := by
  rw [checkAnchorLeft, Anchor.Finds]
  split_ifs with ignored isShort isEmpty
  · simp [ignored]
  · rw [or_iff_right ignored]
    simp only [false_iff, not_exists, not_and]
    intro d atLeast _ inside
    omega
  · omega
  rw [anchorLeftLoop_iff notSpecial, or_iff_right ignored]
  constructor
  · rintro ⟨i, isTry, inside, isByte⟩
    refine ⟨anchor.mindist + i, by omega, by omega, by omega, ?_⟩
    rwa [show start - (anchor.mindist + i + 1) = start - (anchor.mindist + 1) - i by omega]
  · rintro ⟨d, atLeast, atMost, inside, isByte⟩
    refine ⟨d - anchor.mindist, by omega, by omega, ?_⟩
    rwa [show start - (anchor.mindist + 1) - (d - anchor.mindist) = start - (d + 1) by omega]

/-- A single byte at some distance tells whether the distance is in the range. -/
theorem Anchor.finds_single_iff
    {byte : Nat → UInt8}
    {d : Nat}
    (counts : anchor.ch.hasIgnoreBit = false)
    (notSpecial : anchor.ch ≠ .special)
    (here : byte d = anchor.ch.sample)
    (elsewhere : ∀ i < d, byte i = anchor.ch.sample + 1) :
    anchor.Finds (d + 1) byte ↔ anchor.mindist ≤ d ∧ d ≤ anchor.maxdist := by
  rw [Anchor.Finds, or_iff_right (by simp [counts])]
  constructor
  · rintro ⟨i, atLeast, atMost, inside, isByte⟩
    rcases Nat.lt_or_eq_of_le (Nat.le_of_lt_succ inside) with isBefore | rfl
    · rw [elsewhere i isBefore, not_accepts_sample_succ counts] at isByte
      cases isByte
    · exact ⟨atLeast, atMost⟩
  · rintro ⟨atLeast, atMost⟩
    exact ⟨d, atLeast, atMost, Nat.lt_succ_self d, here ▸ accepts_sample notSpecial⟩

end

/-- The flags without the negations of those that are not set. -/
def Boundary.normal (flags : Boundary) : Boundary :=
  { flags with
    leftNegative := flags.left && flags.leftNegative
    rightNegative := flags.right && flags.rightNegative
    lineLeftNegative := flags.lineLeft && flags.lineLeftNegative
    lineRightNegative := flags.lineRight && flags.lineRightNegative }

theorem boundaryHolds_normal
    (wanted negative found : Bool) :
    boundaryHolds wanted (wanted && negative) found = boundaryHolds wanted negative found := by
  cases wanted with
  | false | true => rfl

theorem checkBoundary_normal
    (buffer : List UInt8)
    (offset fileoffset bp : Nat)
    (flags : Boundary) :
    checkBoundary buffer offset fileoffset bp flags.normal =
      checkBoundary buffer offset fileoffset bp flags := by
  simp only [checkBoundary, Boundary.normal, boundaryHolds_normal]

/-- A word begins at an offset. -/
def wordBefore (buffer : List UInt8) (offset fileoffset : Nat) : Bool :=
  let before := byteAt buffer (offset - 1)
  fileoffset = 0 ∨ (offset ≠ 0 ∧ (boundaryClass before = 1 ∨ boundaryClass before = 3))

/-- A line begins at an offset. -/
def lineBefore (buffer : List UInt8) (offset fileoffset : Nat) : Bool :=
  fileoffset = 0 ∨ (offset ≠ 0 ∧ byteAt buffer (offset - 1) = 0x0a)

/-- A word ends at an offset. -/
def wordBehind (buffer : List UInt8) (bp : Nat) : Bool :=
  bp = buffer.length ∨ boundaryClass (byteAt buffer bp) ≥ 2

/-- A line ends at an offset. -/
def lineBehind (buffer : List UInt8) (bp : Nat) : Bool :=
  let behind := byteAt buffer bp
  bp = buffer.length ∨ behind = 0x0a ∨
    (behind = 0x0d ∧ bp + 1 < buffer.length ∧ byteAt buffer (bp + 1) = 0x0a)

/-- The left flags hold, by whether a word and a line begin. -/
def Boundary.leftHolds (flags : Boundary) (word line : Bool) : Bool :=
  boundaryHolds flags.left flags.leftNegative word &&
    boundaryHolds flags.lineLeft flags.lineLeftNegative line

/-- The right flags hold, by whether a word and a line end. -/
def Boundary.rightHolds (flags : Boundary) (word line : Bool) : Bool :=
  boundaryHolds flags.right flags.rightNegative word &&
    boundaryHolds flags.lineRight flags.lineRightNegative line

/-- The boundary is looked at on each side. -/
theorem checkBoundary_eq
    (few : buffer.length ≤ scanBuff)
    (offset fileoffset bp : Nat)
    (flags : Boundary) :
    checkBoundary buffer offset fileoffset bp flags =
      (flags.leftHolds (wordBefore buffer offset fileoffset)
          (lineBefore buffer offset fileoffset) &&
        flags.rightHolds (wordBehind buffer bp) (lineBehind buffer bp)) := by
  unfold checkBoundary Boundary.leftHolds Boundary.rightHolds
  simp only [few, true_and, Bool.and_assoc]
  rw [Bool.and_left_comm (boundaryHolds flags.right _ _)]
  rfl

theorem byteAt_append_right
    (front rest : List UInt8)
    (index : Nat) :
    byteAt (front ++ rest) (front.length + index) = byteAt rest index := by
  rw [byteAt, byteAt, getD_eq_getElem?_getD, getElem?_append_right (Nat.le_add_right _ _),
    Nat.add_sub_cancel_left, getD_eq_getElem?_getD]

/-- What ends behind a text is seen from the bytes behind it. -/
theorem wordBehind_append
    (front behind : List UInt8) :
    wordBehind (front ++ behind) front.length = wordBehind behind 0 := by
  have isFirst := byteAt_append_right front behind 0
  simp only [wordBehind, Nat.add_zero] at isFirst ⊢
  simp [isFirst, @eq_comm Nat 0]

theorem lineBehind_append
    (front behind : List UInt8) :
    lineBehind (front ++ behind) front.length = lineBehind behind 0 := by
  have isFirst := byteAt_append_right front behind 0
  have isNext := byteAt_append_right front behind 1
  simp only [lineBehind, Nat.add_zero] at isFirst ⊢
  simp [isFirst, isNext, @eq_comm Nat 0]

/-- What begins in front of a text is seen from the bytes before it. -/
theorem leftHolds_append
    (flags : Boundary)
    (before rest : List UInt8)
    (fileoffset : Nat) :
    flags.leftHolds (wordBefore (before ++ rest) before.length fileoffset)
        (lineBefore (before ++ rest) before.length fileoffset) =
      flags.leftHolds (wordBefore before before.length fileoffset)
        (lineBefore before before.length fileoffset) := by
  by_cases isEmpty : before.length = 0
  · simp [wordBefore, lineBefore, isEmpty]
  · simp only [wordBefore, lineBefore,
      byteAt_append_left rest (show before.length - 1 < before.length by omega)]

/-- No flag speaks of the byte before the text. -/
def Boundary.leftFree (flags : Boundary) : Prop := flags.left = false ∧ flags.lineLeft = false

/-- No flag speaks of the byte behind the text. -/
def Boundary.rightFree (flags : Boundary) : Prop := flags.right = false ∧ flags.lineRight = false

/-- Two pairs of flags that accept the same are the same. -/
theorem boundaryHolds_pair_injective :
    ∀ {l n l' n' k m k' m' : Bool},
      (∀ found lineFound, (boundaryHolds l n found && boundaryHolds k m lineFound) =
        (boundaryHolds l' n' found && boundaryHolds k' m' lineFound)) →
      l = l' ∧ (l && n) = (l' && n') ∧ k = k' ∧ (k && m) = (k' && m') := by
  decide +kernel

/--
A line ends at a boundary, so that only three of the four outcomes occur on the right;
they tell pairs with one flag at most.
-/
theorem boundaryHolds_single_injective :
    ∀ {l n l' n' k m k' m' : Bool},
      (l && k) = false →
      (l' && k') = false →
      (∀ found lineFound, (lineFound && !found) = false →
        (boundaryHolds l n found && boundaryHolds k m lineFound) =
          (boundaryHolds l' n' found && boundaryHolds k' m' lineFound)) →
      l = l' ∧ (l && n) = (l' && n') ∧ k = k' ∧ (k && m) = (k' && m') := by
  decide +kernel

/--
A plain pattern has no special elements, short ranges, and on each side flags or an anchor.
A prefix stands between the left flags and the bytes before it.
-/
structure AcPatt.Plain (patt : AcPatt) : Prop where
  noSpecial : .special ∉ patt.prefixPat ++ patt.pattern
  short : patt.prefixPat.length + patt.pattern.length < 2 ^ 16
  leftRange : patt.anchorLeft.mindist ≤ patt.anchorLeft.maxdist
  rightRange : patt.anchorRight.mindist ≤ patt.anchorRight.maxdist
  leftShort : patt.anchorLeft.maxdist ≤ 32
  rightShort : patt.anchorRight.maxdist ≤ 32
  leftPlain : patt.anchorLeft.ch ≠ .special
  rightPlain : patt.anchorRight.ch ≠ .special
  left :
    patt.boundary.leftFree ∨ patt.anchorLeft.ch.hasIgnoreBit = true ∧ patt.prefixPat = []
  right :
    patt.boundary.rightFree ∨
      patt.anchorRight.ch.hasIgnoreBit = true ∧
        (patt.boundary.right && patt.boundary.lineRight) = false

theorem Boundary.leftHolds_of_free
    {flags : Boundary}
    (free : flags.leftFree)
    (word line : Bool) :
    flags.leftHolds word line = true := by
  simp [Boundary.leftHolds, boundaryHolds, free.1, free.2]

theorem Boundary.rightHolds_of_free
    {flags : Boundary}
    (free : flags.rightFree)
    (word line : Bool) :
    flags.rightHolds word line = true := by
  simp [Boundary.rightHolds, boundaryHolds, free.1, free.2]

/-- What a pattern asks of the bytes before its text. -/
def AcPatt.FitsBefore
    (patt : AcPatt)
    (before : List UInt8)
    (fileoffset : Nat) :
    Prop :=
  patt.boundary.leftHolds (wordBefore before before.length fileoffset)
      (lineBefore before before.length fileoffset) = true ∧
    patt.anchorLeft.Finds before.length fun d => byteAt before (before.length - (d + 1))

/-- What a pattern asks of the bytes behind its text. -/
def AcPatt.FitsBehind (patt : AcPatt) (behind : List UInt8) : Prop :=
  patt.boundary.rightHolds (wordBehind behind 0) (lineBehind behind 0) = true ∧
    patt.anchorRight.Finds behind.length (byteAt behind)

/-- The text of a plain pattern between other bytes. -/
def AcPatt.around (patt : AcPatt) (before behind : List UInt8) : List UInt8 :=
  before ++ (patt.prefixPat ++ patt.pattern).map PatChar.sample ++ behind

section

variable {patt : AcPatt} {before behind : List UInt8}

/-- The bytes up to the end of the pattern. -/
theorem AcPatt.length_upTo_end :
    (before ++ (patt.prefixPat ++ patt.pattern).map PatChar.sample).length =
      before.length + patt.prefixPat.length + patt.pattern.length := by
  simp [Nat.add_assoc]

/-- The flags of a plain pattern are about the bytes around its text. -/
theorem checkBoundary_around
    (plain : patt.Plain)
    (few : (patt.around before behind).length ≤ scanBuff)
    (fileoffset : Nat) :
    checkBoundary (patt.around before behind) (before.length + patt.prefixPat.length) fileoffset
        (before.length + patt.prefixPat.length + patt.pattern.length) patt.boundary =
      (patt.boundary.leftHolds (wordBefore before before.length fileoffset)
          (lineBefore before before.length fileoffset) &&
        patt.boundary.rightHolds (wordBehind behind 0) (lineBehind behind 0)) := by
  rw [checkBoundary_eq few, ← AcPatt.length_upTo_end, AcPatt.around, wordBehind_append,
    lineBehind_append]
  congr 1
  rcases plain.left with free | ⟨-, isEmpty⟩
  · rw [Boundary.leftHolds_of_free free, Boundary.leftHolds_of_free free]
  · rw [isEmpty, append_assoc]
    exact leftHolds_append patt.boundary before _ fileoffset

/-- An anchor looks only at the bytes of its side. -/
theorem Anchor.finds_congr
    {anchor : Anchor}
    {length : Nat}
    {byte byte' : Nat → UInt8}
    (same : ∀ d < length, byte d = byte' d) :
    anchor.Finds length byte ↔ anchor.Finds length byte' := by
  refine or_congr_right (exists_congr fun d => and_congr_right fun _ => and_congr_right fun _ =>
    and_congr_right fun inside => ?_)
  rw [same d inside]

/-- The pattern of a plain pattern is found in its text. -/
theorem matchPattern_around
    (plain : patt.Plain)
    (deep : patt.depth ≤ patt.pattern.length) :
    matchPattern (patt.around before behind) patt.specialTable
        (patt.pattern.drop patt.depth) (before.length + patt.prefixPat.length + patt.depth)
        patt.specialPattern =
      some (before.length + patt.prefixPat.length + patt.pattern.length, patt.specialPattern) := by
  have patternPlain := (not_or.mp (mt mem_append.mpr plain.noSpecial)).2
  have stands := @matchPattern_sample patt.specialTable (patt.pattern.drop patt.depth)
    (fun isSpecial => patternPlain (mem_of_mem_drop isSpecial))
    (before ++ (patt.prefixPat ++ patt.pattern.take patt.depth).map PatChar.sample) behind
    patt.specialPattern
  have isAround : before ++ (patt.prefixPat ++ patt.pattern.take patt.depth).map PatChar.sample ++
      (patt.pattern.drop patt.depth).map PatChar.sample ++ behind = patt.around before behind := by
    rw [AcPatt.around, append_assoc before, ← map_append, append_assoc patt.prefixPat,
      take_append_drop]
  rw [isAround] at stands
  simp only [length_append, length_map, length_take, length_drop, Nat.min_eq_left deep] at stands
  rw [← Nat.add_assoc] at stands
  rw [stands]
  congr 2
  omega

/-- So is its prefix. -/
theorem matchPrefix_around
    (plain : patt.Plain) :
    matchPrefix (patt.around before behind) patt.specialTable patt.prefixPat before.length 0 =
      some 0 := by
  have prefixPlain := (not_or.mp (mt mem_append.mpr plain.noSpecial)).1
  have stands := @matchPrefix_sample patt.specialTable patt.prefixPat prefixPlain before
    (patt.pattern.map PatChar.sample ++ behind) 0
  rwa [append_assoc, ← append_assoc (map _ _), ← map_append, ← append_assoc] at stands

/-- The right anchor of a plain pattern is looked for in the bytes behind its text. -/
theorem checkAnchorRight_around_iff
    (plain : patt.Plain)
    (specialcnt : Nat) :
    (checkAnchorRight (patt.around before behind) patt.specialTable patt.anchorRight
        (before.length + patt.prefixPat.length + patt.pattern.length) specialcnt).isSome ↔
      patt.anchorRight.Finds behind.length (byteAt behind) := by
  rw [checkAnchorRight_isSome_iff plain.rightPlain plain.rightRange,
    ← @AcPatt.length_upTo_end patt before, AcPatt.around, length_append, Nat.add_sub_cancel_left]
  exact Anchor.finds_congr fun d _ => byteAt_append_right _ behind d

/-- The left anchor of a plain pattern is looked for in the bytes before its text. -/
theorem checkAnchorLeft_around_iff
    (plain : patt.Plain)
    (specialcnt : Nat) :
    checkAnchorLeft (patt.around before behind) patt.specialTable patt.anchorLeft before.length
        specialcnt ↔
      patt.anchorLeft.Finds before.length fun d => byteAt before (before.length - (d + 1)) := by
  rw [checkAnchorLeft_iff plain.leftPlain plain.leftRange, AcPatt.around, append_assoc]
  exact Anchor.finds_congr fun d inside => byteAt_append_left _ (by omega)

/-- A plain pattern is accepted exactly between bytes that its flags and anchors ask for. -/
theorem acFindmatch_around_iff
    (plain : patt.Plain)
    (deep : patt.depth ≤ patt.pattern.length)
    (few : (patt.around before behind).length ≤ scanBuff)
    (fileoffset : Nat) :
    (acFindmatch (patt.around before behind) (before.length + patt.prefixPat.length) fileoffset
        patt).isSome ↔
      patt.FitsBefore before fileoffset ∧ patt.FitsBehind behind := by
  have inside : before.length + patt.prefixPat.length + patt.pattern.length ≤
      (patt.around before behind).length := by
    rw [← AcPatt.length_upTo_end, AcPatt.around]
    exact (sublist_append_left _ _).length_le
  rw [acFindmatch, if_neg (by omega), matchPattern_around plain deep]
  dsimp only
  rw [checkBoundary_around plain few, Nat.add_sub_cancel, AcPatt.FitsBefore, AcPatt.FitsBehind,
    ← checkAnchorRight_around_iff plain patt.specialPattern]
  cases patt.boundary.leftHolds (wordBefore before before.length fileoffset)
      (lineBefore before before.length fileoffset) with
  | false => simp
  | true =>
    cases patt.boundary.rightHolds (wordBehind behind 0) (lineBehind behind 0) with
    | false => simp
    | true =>
      cases checkAnchorRight (patt.around before behind) patt.specialTable patt.anchorRight
          (before.length + patt.prefixPat.length + patt.pattern.length) patt.specialPattern with
      | none => simp
      | some found =>
        -- only the left anchor is left to be looked for, with or without a prefix
        cases hasPrefix : patt.hasPrefix with
        | false | true =>
          simpa [matchPrefix_around plain] using checkAnchorLeft_around_iff plain _

end

/-- A byte that a character stands for, before `d` bytes that it does not stand for. -/
def PatChar.farBefore (ch : PatChar) (d : Nat) : List UInt8 :=
  ch.sample :: replicate d (ch.sample + 1)

/-- A byte that a character stands for, behind `d` bytes that it does not stand for. -/
def PatChar.farBehind (ch : PatChar) (d : Nat) : List UInt8 :=
  replicate d (ch.sample + 1) ++ [ch.sample]

section

variable {anchor : Anchor}

theorem Anchor.finds_farBefore_iff
    (counts : anchor.ch.hasIgnoreBit = false)
    (notSpecial : anchor.ch ≠ .special)
    (d : Nat) :
    (anchor.Finds (anchor.ch.farBefore d).length fun i =>
        byteAt (anchor.ch.farBefore d) ((anchor.ch.farBefore d).length - (i + 1))) ↔
      anchor.mindist ≤ d ∧ d ≤ anchor.maxdist := by
  have isLength : (anchor.ch.farBefore d).length = d + 1 := by simp [PatChar.farBefore]
  rw [isLength]
  refine Anchor.finds_single_iff counts notSpecial ?_ fun i isBefore => ?_
  · simp [byteAt, PatChar.farBefore]
  · rw [show d + 1 - (i + 1) = (d - i - 1) + 1 by omega]
    simp [byteAt, PatChar.farBefore, show d - i - 1 < d by omega]

theorem Anchor.finds_farBehind_iff
    (counts : anchor.ch.hasIgnoreBit = false)
    (notSpecial : anchor.ch ≠ .special)
    (d : Nat) :
    anchor.Finds (anchor.ch.farBehind d).length (byteAt (anchor.ch.farBehind d)) ↔
      anchor.mindist ≤ d ∧ d ≤ anchor.maxdist := by
  have isLength : (anchor.ch.farBehind d).length = d + 1 := by simp [PatChar.farBehind]
  rw [isLength]
  refine Anchor.finds_single_iff counts notSpecial ?_ fun i isBefore => ?_
  · simp [byteAt, PatChar.farBehind]
  · simp [byteAt, PatChar.farBehind, getElem?_append_left, isBefore]

/-- Anchors that find the same single bytes have the same range. -/
theorem Anchor.eq_of_ranges
    {other : Anchor}
    (sameCh : anchor.ch = other.ch)
    (range : anchor.mindist ≤ anchor.maxdist)
    (otherRange : other.mindist ≤ other.maxdist)
    (short : anchor.maxdist ≤ 32)
    (otherShort : other.maxdist ≤ 32)
    (same : ∀ d ≤ 32, (anchor.mindist ≤ d ∧ d ≤ anchor.maxdist) ↔
      (other.mindist ≤ d ∧ d ≤ other.maxdist)) :
    anchor = other := by
  have first := (same anchor.mindist (by omega)).mp ⟨Nat.le_refl _, range⟩
  have last := (same anchor.maxdist short).mp ⟨range, Nat.le_refl _⟩
  have otherFirst := (same other.mindist (by omega)).mpr ⟨Nat.le_refl _, otherRange⟩
  have otherLast := (same other.maxdist otherShort).mpr ⟨otherRange, Nat.le_refl _⟩
  obtain ⟨ch, mindist, maxdist⟩ := anchor
  obtain ⟨ch', mindist', maxdist'⟩ := other
  simp only [Anchor.mk.injEq] at sameCh first last otherFirst otherLast ⊢
  exact ⟨sameCh, by omega, by omega⟩

end

/-- Words and lines begin in any combination. -/
theorem exists_before
    (word line : Bool) :
    ∃ before fileoffset, before.length ≤ 33 ∧ wordBefore before before.length fileoffset = word ∧
      lineBefore before before.length fileoffset = line := by
  cases word with
  | false =>
    cases line with
    | false => exact ⟨[0x78], 1, by decide⟩
    | true => exact ⟨[0x0a], 1, by decide⟩
  | true =>
    cases line with
    | false => exact ⟨[0x20], 1, by decide⟩
    | true => exact ⟨[], 0, by decide⟩

/-- Words and lines end in any combination, but a line only where a word ends. -/
theorem exists_behind
    {word line : Bool}
    (possible : (line && !word) = false) :
    ∃ behind, behind.length ≤ 33 ∧ wordBehind behind 0 = word ∧ lineBehind behind 0 = line := by
  cases word with
  | false =>
    cases line with
    | false => exact ⟨[0x78], by decide⟩
    | true => cases possible
  | true =>
    cases line with
    | false => exact ⟨[0x20], by decide⟩
    | true => exact ⟨[], by decide⟩

/-- The fields that the comparison leaves out are the same where they count. -/
structure SameSides (a b : AcPatt) : Prop where
  boundary : a.boundary.normal = b.boundary.normal
  left : a.anchorLeft.ch.hasIgnoreBit = false → a.anchorLeft = b.anchorLeft
  right : a.anchorRight.ch.hasIgnoreBit = false → a.anchorRight = b.anchorRight
  hasPrefix : a.anchorLeft.ch = .special → a.hasPrefix = b.hasPrefix

section

variable {a b patt : AcPatt}

/-- Some bytes may stand before a plain pattern. -/
theorem AcPatt.Plain.exists_fitsBefore
    (plain : patt.Plain) :
    ∃ before fileoffset, before.length ≤ 33 ∧ patt.FitsBefore before fileoffset := by
  cases ignored : patt.anchorLeft.ch.hasIgnoreBit with
  | true =>
    obtain ⟨before, fileoffset, short, isWord, isLine⟩ :=
      exists_before (!patt.boundary.leftNegative) (!patt.boundary.lineLeftNegative)
    refine ⟨before, fileoffset, short, ?_, .inl ignored⟩
    rw [isWord, isLine]
    simp [Boundary.leftHolds, boundaryHolds]
  | false =>
    have free := plain.left.resolve_right fun isIgnored => by simp [ignored] at isIgnored
    refine ⟨patt.anchorLeft.ch.farBefore patt.anchorLeft.mindist, 0, ?_,
      Boundary.leftHolds_of_free free _ _,
      (Anchor.finds_farBefore_iff ignored plain.leftPlain _).mpr
        ⟨Nat.le_refl _, plain.leftRange⟩⟩
    have := plain.leftRange
    have := plain.leftShort
    simp only [PatChar.farBefore, length_cons, length_replicate]
    omega

/-- Some bytes may stand behind a plain pattern. -/
theorem AcPatt.Plain.exists_fitsBehind
    (plain : patt.Plain) :
    ∃ behind, behind.length ≤ 33 ∧ patt.FitsBehind behind := by
  cases ignored : patt.anchorRight.ch.hasIgnoreBit with
  | true =>
    have satisfiable : ∀ r n lr nl : Bool, (r && lr) = false →
        ∃ word line, (line && !word) = false ∧
          (boundaryHolds r n word && boundaryHolds lr nl line) = true := by
      decide
    have single : (patt.boundary.right && patt.boundary.lineRight) = false := by
      rcases plain.right with free | ⟨-, single⟩
      · rw [free.1]
        rfl
      · exact single
    obtain ⟨word, line, possible, holds⟩ := satisfiable _ patt.boundary.rightNegative _
      patt.boundary.lineRightNegative single
    obtain ⟨behind, short, isWord, isLine⟩ := exists_behind possible
    refine ⟨behind, short, ?_, .inl ignored⟩
    rw [isWord, isLine]
    exact holds
  | false =>
    have free := plain.right.resolve_right fun isIgnored => by simp [ignored] at isIgnored
    refine ⟨patt.anchorRight.ch.farBehind patt.anchorRight.mindist, ?_,
      Boundary.rightHolds_of_free free _ _,
      (Anchor.finds_farBehind_iff ignored plain.rightPlain _).mpr
        ⟨Nat.le_refl _, plain.rightRange⟩⟩
    have := plain.rightRange
    have := plain.rightShort
    simp only [PatChar.farBehind, length_append, length_replicate, length_singleton]
    omega

/-- The left sides of plain patterns that accept the same bytes are the same. -/
theorem left_of_agree
    (aPlain : a.Plain)
    (bPlain : b.Plain)
    (sameCh : a.anchorLeft.ch = b.anchorLeft.ch)
    (agree : ∀ before fileoffset, before.length ≤ 33 →
      (a.FitsBefore before fileoffset ↔ b.FitsBefore before fileoffset)) :
    (a.boundary.left = b.boundary.left ∧
      a.boundary.normal.leftNegative = b.boundary.normal.leftNegative ∧
      a.boundary.lineLeft = b.boundary.lineLeft ∧
      a.boundary.normal.lineLeftNegative = b.boundary.normal.lineLeftNegative) ∧
      (a.anchorLeft.ch.hasIgnoreBit = false → a.anchorLeft = b.anchorLeft) := by
  cases ignored : a.anchorLeft.ch.hasIgnoreBit with
  | true =>
    refine ⟨boundaryHolds_pair_injective fun word line => ?_, nofun⟩
    obtain ⟨before, fileoffset, short, rfl, rfl⟩ := exists_before word line
    have agrees := agree before fileoffset short
    unfold AcPatt.FitsBefore at agrees
    rw [and_iff_left (.inl ignored), and_iff_left (.inl (sameCh ▸ ignored))] at agrees
    exact Bool.eq_iff_iff.mpr agrees
  | false =>
    have otherIgnored : b.anchorLeft.ch.hasIgnoreBit = false := sameCh ▸ ignored
    have aFree := aPlain.left.resolve_right fun isIgnored => by simp [ignored] at isIgnored
    have bFree := bPlain.left.resolve_right fun isIgnored => by simp [otherIgnored] at isIgnored
    constructor
    · simp [Boundary.normal, aFree.1, aFree.2, bFree.1, bFree.2]
    intro _
    refine Anchor.eq_of_ranges sameCh aPlain.leftRange bPlain.leftRange aPlain.leftShort
      bPlain.leftShort fun d short => ?_
    have agrees := agree (a.anchorLeft.ch.farBefore d) 0 (by simp [PatChar.farBefore]; omega)
    unfold AcPatt.FitsBefore at agrees
    rw [and_iff_right (Boundary.leftHolds_of_free aFree _ _),
      and_iff_right (Boundary.leftHolds_of_free bFree _ _),
      Anchor.finds_farBefore_iff ignored aPlain.leftPlain, sameCh,
      Anchor.finds_farBefore_iff otherIgnored bPlain.leftPlain] at agrees
    exact agrees

/-- The right sides of plain patterns that accept the same bytes are the same. -/
theorem right_of_agree
    (aPlain : a.Plain)
    (bPlain : b.Plain)
    (sameCh : a.anchorRight.ch = b.anchorRight.ch)
    (agree : ∀ behind, behind.length ≤ 33 → (a.FitsBehind behind ↔ b.FitsBehind behind)) :
    (a.boundary.right = b.boundary.right ∧
      a.boundary.normal.rightNegative = b.boundary.normal.rightNegative ∧
      a.boundary.lineRight = b.boundary.lineRight ∧
      a.boundary.normal.lineRightNegative = b.boundary.normal.lineRightNegative) ∧
      (a.anchorRight.ch.hasIgnoreBit = false → a.anchorRight = b.anchorRight) := by
  have single {patt : AcPatt} (plain : patt.Plain) :
      (patt.boundary.right && patt.boundary.lineRight) = false := by
    rcases plain.right with free | ⟨-, single⟩
    · rw [free.1]
      rfl
    · exact single
  cases ignored : a.anchorRight.ch.hasIgnoreBit with
  | true =>
    refine ⟨boundaryHolds_single_injective (single aPlain) (single bPlain)
      fun word line possible => ?_, nofun⟩
    obtain ⟨behind, short, rfl, rfl⟩ := exists_behind possible
    have agrees := agree behind short
    unfold AcPatt.FitsBehind at agrees
    rw [and_iff_left (.inl ignored), and_iff_left (.inl (sameCh ▸ ignored))] at agrees
    exact Bool.eq_iff_iff.mpr agrees
  | false =>
    have otherIgnored : b.anchorRight.ch.hasIgnoreBit = false := sameCh ▸ ignored
    have aFree := aPlain.right.resolve_right fun isIgnored => by simp [ignored] at isIgnored
    have bFree := bPlain.right.resolve_right fun isIgnored => by simp [otherIgnored] at isIgnored
    constructor
    · simp [Boundary.normal, aFree.1, aFree.2, bFree.1, bFree.2]
    intro _
    refine Anchor.eq_of_ranges sameCh aPlain.rightRange bPlain.rightRange aPlain.rightShort
      bPlain.rightShort fun d short => ?_
    have agrees := agree (a.anchorRight.ch.farBehind d) (by simp [PatChar.farBehind]; omega)
    unfold AcPatt.FitsBehind at agrees
    rw [and_iff_right (Boundary.rightHolds_of_free aFree _ _),
      and_iff_right (Boundary.rightHolds_of_free bFree _ _),
      Anchor.finds_farBehind_iff ignored aPlain.rightPlain, sameCh,
      Anchor.finds_farBehind_iff otherIgnored bPlain.rightPlain] at agrees
    exact agrees

/--
Plain patterns with the same text that accept the same places have the same flags and
anchors: the bytes before the text and those behind it can be chosen on their own.
-/
theorem SameSides.of_agree
    (aPlain : a.Plain)
    (bPlain : b.Plain)
    (same : samePatt a b = some true)
    (aDeep : a.depth ≤ a.pattern.length)
    (bDeep : b.depth ≤ b.pattern.length)
    (agree : ∀ buffer offset fileoffset,
      (acFindmatch buffer offset fileoffset a).isSome =
        (acFindmatch buffer offset fileoffset b).isSome) :
    SameSides a b := by
  obtain ⟨patterns, prefixes, leftCh, rightCh, -⟩ := samePatt_true_iff.mp same
  have agrees (before behind : List UInt8) (fileoffset : Nat) (beforeShort : before.length ≤ 33)
      (behindShort : behind.length ≤ 33) :
      a.FitsBefore before fileoffset ∧ a.FitsBehind behind ↔
        b.FitsBefore before fileoffset ∧ b.FitsBehind behind := by
    have sameText : a.around before behind = b.around before behind := by
      rw [AcPatt.around, AcPatt.around, patterns, prefixes]
    have few : (a.around before behind).length ≤ scanBuff := by
      have := aPlain.short
      simp only [AcPatt.around, length_append, length_map, scanBuff]
      omega
    rw [← acFindmatch_around_iff aPlain aDeep few, agree, sameText, prefixes,
      acFindmatch_around_iff bPlain bDeep (sameText ▸ few)]
  obtain ⟨before, fileoffset, beforeShort, fitsBefore⟩ := aPlain.exists_fitsBefore
  obtain ⟨behind, behindShort, fitsBehind⟩ := aPlain.exists_fitsBehind
  have otherFits := (agrees before behind fileoffset beforeShort behindShort).mp
    ⟨fitsBefore, fitsBehind⟩
  obtain ⟨⟨left, leftNegative, lineLeft, lineLeftNegative⟩, sameLeft⟩ :=
    left_of_agree aPlain bPlain leftCh fun before fileoffset short => by
      simpa [fitsBehind, otherFits.2] using agrees before behind fileoffset short behindShort
  obtain ⟨⟨right, rightNegative, lineRight, lineRightNegative⟩, sameRight⟩ :=
    right_of_agree aPlain bPlain rightCh fun behind short => by
      simpa [fitsBefore, otherFits.1] using agrees before behind fileoffset beforeShort short
  refine ⟨?_, sameLeft, sameRight, fun isSpecial => absurd isSpecial aPlain.leftPlain⟩
  simp only [Boundary.normal, Boundary.mk.injEq] at *
  exact ⟨left, leftNegative, right, rightNegative, lineLeft, lineLeftNegative, lineRight,
    lineRightNegative⟩

end

end LibClamav.Ac
