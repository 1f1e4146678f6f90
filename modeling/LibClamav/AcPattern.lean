import LibClamav.Offset

namespace LibClamav.Ac

/-!
# Patterns of the Aho-Corasick matcher

The characters of a pattern, its special elements, and `ac_findmatch`, which
checks one pattern at one position of a buffer.  The scanner has compared the
first `depth` characters already when it calls `ac_findmatch`.
-/

/--
One 16-bit pattern character as `cli_hex2ui` makes them: a byte, `??`, a
special element, a high nibble `a?` (kept in the upper four bits) and a low
nibble `?a`.
-/
inductive PatChar where
  | char (c : UInt8)
  | ignore
  | special
  | nibbleHigh (c : UInt8)
  | nibbleLow (c : UInt8)
  deriving Repr, DecidableEq

/-- `p & CLI_MATCH_WILDCARD` is not zero. -/
def PatChar.isWildcard : PatChar → Bool
  | .char _ => false
  | _ => true

/-- `p & CLI_MATCH_IGNORE`; the code of a high nibble has this bit too. -/
def PatChar.hasIgnoreBit : PatChar → Bool
  | .ignore => true
  | .nibbleHigh _ => true
  | _ => false

/-- The kinds of special elements. -/
inductive SpecialKind where
  /-- `(aa|bb)`: the bytes, in the order `cli_ac_addsig` sorts them. -/
  | altChar (str : List UInt8)
  /-- `(aabb|cc)`: the strings, in the order they are written. -/
  | altStr (strs : List (List UInt8))
  /-- `(L)` inside a pattern. -/
  | lineMarker
  /-- `(B)` inside a pattern. -/
  | boundary
  deriving Repr, DecidableEq

/-- `struct cli_ac_special` -/
structure Special where
  kind : SpecialKind
  negative : Bool := false
  deriving Repr, DecidableEq

/-- The bits of `boundary`. -/
structure Boundary where
  left : Bool := false
  leftNegative : Bool := false
  right : Bool := false
  rightNegative : Bool := false
  lineLeft : Bool := false
  lineLeftNegative : Bool := false
  lineRight : Bool := false
  lineRightNegative : Bool := false
  deriving Repr, DecidableEq

/-- One anchor `aa[n-m]` or `[n-m]aa`: `ch`, `ch_mindist` and `ch_maxdist`. -/
structure Anchor where
  ch : PatChar := .ignore
  mindist : Nat := 0
  maxdist : Nat := 0
  deriving Repr, DecidableEq

/--
`struct cli_ac_patt` without the two list pointers, which belong to the
matcher.  `hasPrefix` is `prefix != NULL`: a prefix may be present and empty.
-/
structure AcPatt where
  pattern : List PatChar
  hasPrefix : Bool := false
  prefixPat : List PatChar := []
  mindist : Nat := 0
  maxdist : Nat := 0
  sigid : Nat := 0
  lsigid : Option (Nat × Nat) := none
  anchorLeft : Anchor := {}
  anchorRight : Anchor := {}
  virname : List Char := []
  customdata : Option Nat := none
  parts : Nat := 0
  partno : Nat := 0
  specialTable : List Special := []
  specialPattern : Nat := 0
  depth : Nat := 0
  rtype : Nat := 0
  type : Nat := 0
  offdata : OffData := {}
  offsetMin : Nat := 0
  offsetMax : Nat := 0
  boundary : Boundary := {}
  deriving Repr, DecidableEq

/-- `SCANBUFF` of the win32 configuration. -/
def scanBuff : Nat := 131072

/-- The table `boundary`: 1 opens a word, 2 closes it, 3 does both. -/
def boundaryClass (b : UInt8) : Nat :=
  if b = 0x20 ∨ b = 0x2d ∨ b = 0x2f ∨ b = 0x5f then
    3
  else if b = 0x0a ∨ b = 0x0d ∨ b = 0x22 ∨ b = 0x27 ∨ b = 0x3d ∨ b = 0x3e then
    2
  else if b = 0x2e ∨ b = 0x3c ∨ b = 0x40 then
    1
  else
    0

/-- The sorted search of `AC_SPECIAL_ALT_CHAR`. -/
def findAltChar (b : UInt8) : List UInt8 → Bool
  | [] => false
  | c :: rest =>
    if c = b then
      true
    else if b < c then
      false
    else
      findAltChar b rest

/--
The search of `AC_SPECIAL_ALT_STR`: the length of the first string that stands
at `bp` and the `negative` flag of its element.  Only the first element of the
chain carries the flag of the written group.
-/
def findAltStr
    (buffer : List UInt8)
    (bp : Nat) :
    Bool → List (List UInt8) → Option (Nat × Bool)
  | _, [] => none
  | negative, str :: rest =>
    if bp + str.length ≤ buffer.length ∧ (buffer.drop bp).take str.length = str then
      some (str.length, negative)
    else
      findAltStr buffer bp false rest

/-- `match`, `bp` and `specialcnt` after one `AC_MATCH_CHAR`. -/
structure CharMatch where
  matched : Bool
  bp : Nat
  specialcnt : Nat
  deriving Repr, DecidableEq

/-- The special case of `AC_MATCH_CHAR`. -/
def acMatchSpecial
    (buffer : List UInt8)
    (special : Special)
    (bp : Nat) :
    Bool × Nat :=
  let b := byteAt buffer bp
  match special.kind with
  | .altChar str =>
    (if findAltChar b str then !special.negative else special.negative, bp)
  | .altStr strs =>
    match findAltStr buffer bp special.negative strs with
    | some (len, negative) => (!negative, bp + len - 1)
    | none => (special.negative, bp)
  | .lineMarker =>
    if b = 0x0a then
      (!special.negative, bp)
    else if b = 0x0d ∧ bp + 1 < buffer.length ∧ byteAt buffer (bp + 1) = 0x0a then
      (!special.negative, bp + 1)
    else
      (special.negative, bp)
  | .boundary =>
    (if boundaryClass b ≠ 0 then !special.negative else special.negative, bp)

/--
`AC_MATCH_CHAR` with `match` set before.  A special element without an entry
in the table matches nothing.
-/
def acMatchChar
    (buffer : List UInt8)
    (specialTable : List Special)
    (p : PatChar)
    (bp specialcnt : Nat) :
    CharMatch :=
  let b := byteAt buffer bp
  match p with
  | .char c => ⟨c == b, bp, specialcnt⟩
  | .ignore => ⟨true, bp, specialcnt⟩
  | .special =>
    match specialTable[specialcnt]? with
    | none => ⟨false, bp, specialcnt + 1⟩
    | some special =>
      let (matched, last) := acMatchSpecial buffer special bp
      ⟨matched, last, specialcnt + 1⟩
  | .nibbleHigh c => ⟨c.toNat / 16 == b.toNat / 16, bp, specialcnt⟩
  | .nibbleLow c => ⟨c.toNat % 16 == b.toNat % 16, bp, specialcnt⟩

/--
The loop over the characters of a pattern; it also ends where the buffer ends.
The result is `bp` and `specialcnt`, or nothing at the first mismatch.
-/
def matchPattern
    (buffer : List UInt8)
    (specialTable : List Special) :
    List PatChar → Nat → Nat → Option (Nat × Nat)
  | [], bp, specialcnt => some (bp, specialcnt)
  | p :: rest, bp, specialcnt =>
    if bp < buffer.length then
      let result := acMatchChar buffer specialTable p bp specialcnt
      if result.matched then
        matchPattern buffer specialTable rest (result.bp + 1) result.specialcnt
      else
        none
    else
      some (bp, specialcnt)

/-- The loop over the prefix, which does not look at the end of the buffer. -/
def matchPrefix
    (buffer : List UInt8)
    (specialTable : List Special) :
    List PatChar → Nat → Nat → Option Nat
  | [], _, specialcnt => some specialcnt
  | p :: rest, bp, specialcnt =>
    let result := acMatchChar buffer specialTable p bp specialcnt
    if result.matched then
      matchPrefix buffer specialTable rest (result.bp + 1) result.specialcnt
    else
      none

/-- A boundary or line marker check: the flag is turned when `found` holds. -/
def boundaryHolds (wanted negative found : Bool) : Bool :=
  !wanted || (if found then !negative else negative)

/-- The four boundary checks; `bp` is the end of the match. -/
def checkBoundary
    (buffer : List UInt8)
    (offset fileoffset bp : Nat)
    (flags : Boundary) :
    Bool :=
  let before := byteAt buffer (offset - 1)
  let behind := byteAt buffer bp
  let inBuffer := buffer.length ≤ scanBuff
  boundaryHolds flags.left flags.leftNegative
      (fileoffset = 0 ∨ (offset ≠ 0 ∧ (boundaryClass before = 1 ∨ boundaryClass before = 3))) &&
    boundaryHolds flags.right flags.rightNegative
      (inBuffer ∧ (bp = buffer.length ∨ boundaryClass behind ≥ 2)) &&
    boundaryHolds flags.lineLeft flags.lineLeftNegative
      (fileoffset = 0 ∨ (offset ≠ 0 ∧ before = 0x0a)) &&
    boundaryHolds flags.lineRight flags.lineRightNegative
      (inBuffer ∧ (bp = buffer.length ∨ behind = 0x0a ∨ (behind = 0x0d ∧ bp + 1 < buffer.length ∧
          byteAt buffer (bp + 1) = 0x0a)))

/-- The search for the right anchor from `bp` on; yields `specialcnt`. -/
def anchorRightLoop
    (buffer : List UInt8)
    (specialTable : List Special)
    (ch : PatChar) :
    Nat → Nat → Nat → Option Nat
  | 0, _, _ => none
  | tries + 1, bp, specialcnt =>
    if bp < buffer.length then
      let result := acMatchChar buffer specialTable ch bp specialcnt
      if result.matched then
        some result.specialcnt
      else
        anchorRightLoop buffer specialTable ch tries (result.bp + 1) result.specialcnt
    else
      none

/-- The search for the left anchor from `bp` back. -/
def anchorLeftLoop
    (buffer : List UInt8)
    (specialTable : List Special)
    (ch : PatChar) :
    Nat → Nat → Nat → Bool
  | 0, _, _ => false
  | tries + 1, bp, specialcnt =>
    let result := acMatchChar buffer specialTable ch bp specialcnt
    if result.matched then
      true
    else if result.bp = 0 then
      false
    else
      anchorLeftLoop buffer specialTable ch tries (result.bp - 1) result.specialcnt

/-- The right anchor; `match` is still set when the range is empty. -/
def checkAnchorRight
    (buffer : List UInt8)
    (specialTable : List Special)
    (anchor : Anchor)
    (bp specialcnt : Nat) :
    Option Nat :=
  if anchor.ch.hasIgnoreBit ∨ anchor.maxdist < anchor.mindist then
    some specialcnt
  else
    anchorRightLoop buffer specialTable anchor.ch
      (anchor.maxdist - anchor.mindist + 1) (bp + anchor.mindist) specialcnt

/-- The left anchor of a match whose prefix starts at `start`. -/
def checkAnchorLeft
    (buffer : List UInt8)
    (specialTable : List Special)
    (anchor : Anchor)
    (start specialcnt : Nat) :
    Bool :=
  if anchor.ch.hasIgnoreBit then
    true
  else if anchor.mindist + 1 > start then
    false
  else if anchor.maxdist < anchor.mindist then
    true
  else
    anchorLeftLoop buffer specialTable anchor.ch (anchor.maxdist - anchor.mindist + 1)
      (start - (anchor.mindist + 1)) specialcnt

/-- `ac_findmatch`; the result is `*end`. -/
def acFindmatch
    (buffer : List UInt8)
    (offset fileoffset : Nat)
    (patt : AcPatt) :
    Option Nat :=
  if offset + patt.pattern.length > buffer.length ∨ patt.prefixPat.length > offset then
    none
  else
    match matchPattern buffer patt.specialTable
        (patt.pattern.drop patt.depth) (offset + patt.depth)
        patt.specialPattern with
    | none => none
    | some (finish, specialcnt) =>
      if !checkBoundary buffer offset fileoffset finish patt.boundary then
        none
      else
        match checkAnchorRight buffer patt.specialTable patt.anchorRight
            finish specialcnt with
        | none => none
        | some behind =>
          let start := offset - patt.prefixPat.length
          match (if patt.hasPrefix then
              matchPrefix buffer patt.specialTable patt.prefixPat start 0
            else some behind) with
          | none => none
          | some specialcnt =>
            if checkAnchorLeft buffer patt.specialTable
                patt.anchorLeft start specialcnt then
              some finish
            else
              none

end LibClamav.Ac
