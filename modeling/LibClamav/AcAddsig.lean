import Mathlib.Data.List.Sort
import LibClamav.AcGroups

namespace LibClamav.Ac

open CText

/-!
# `cli_ac_addsig`

The text of a signature part becomes a pattern: its anchors in square brackets
are cut off, its groups in parentheses become special elements or boundary
flags, the rest is read as hexadecimal characters with wildcards, and a part
that does not begin with good bytes gets a prefix.
-/

variable {patt whole : AcPatt} {maxdepth : Nat}

/-- `cli_hex2int` -/
def cliHex2int (c : Char) : Option Nat :=
  if '0' ≤ c ∧ c ≤ '9' then
    some (c.toNat - '0'.toNat)
  else if 'a' ≤ c ∧ c ≤ 'f' then
    some (c.toNat - 'a'.toNat + 10)
  else if 'A' ≤ c ∧ c ≤ 'F' then
    some (c.toNat - 'A'.toNat + 10)
  else
    none

/-- One round of `cli_realhex2ui`. -/
def hexPair (high low : Char) : Option PatChar :=
  if high = '?' ∧ low = '?' then
    some .ignore
  else if low = '?' then
    (cliHex2int high).map fun c => .nibbleHigh (UInt8.ofNat (c * 16))
  else if high = '?' then
    (cliHex2int low).map fun c => .nibbleLow (UInt8.ofNat c)
  else if high = '(' then
    some .special
  else
    (cliHex2int high).bind fun h => (cliHex2int low).map fun l => .char (UInt8.ofNat (h * 16 + l))

/-- `cli_hex2ui` -/
def cliHex2ui : List Char → Option (List PatChar)
  | [] => some []
  | [_] => none
  | high :: low :: rest =>
    (hexPair high low).bind fun p => (cliHex2ui rest).map (p :: ·)

/-- `cli_hex2str` -/
def cliHex2str : List Char → Option (List UInt8)
  | [] => some []
  | [_] => none
  | high :: low :: rest =>
    (cliHex2int high).bind fun h =>
      (cliHex2int low).bind fun l => (cliHex2str rest).map (UInt8.ofNat (h * 16 + l) :: ·)

/-- The text behind some fields; neighbouring delimiters count as one. -/
def skipFields (delim : Char) : Nat → List Char → List Char
  | 0, line => line
  | fieldno + 1, line =>
    match line.dropWhile (· ≠ delim) with
    | [] => []
    | _ :: rest => skipFields delim fieldno (rest.dropWhile (· = delim))

/-- `cli_strtok` with one delimiter. -/
def cliStrtok
    (line : List Char)
    (fieldno : Nat)
    (delim : Char) :
    Option (List Char) :=
  let field := (skipFields delim fieldno line).takeWhile (· ≠ delim)
  if field = [] then none else some field

/-- The text before a character and the one behind it, if there is one. -/
def cutAt (c : Char) (text : List Char) : List Char × Option (List Char) :=
  match text.span (· ≠ c) with
  | (front, _ :: behind) => (front, some behind)
  | (front, []) => (front, none)

/-- `sscanf(pt, "%u-%u", &n1, &n2) == 2` -/
def scanRange (text : List Char) : Option (Nat × Nat) :=
  match scanUnsigned text with
  | some (n1, '-' :: rest) =>
    (scanUnsigned rest).map fun converted => (n1, converted.1)
  | _ => none

/-- `AC_CH_MAXDIST` -/
def acChMaxdist : Nat := 32

/-- The first range in square brackets, with the text before and behind it. -/
structure Bracket where
  before : List Char
  n1 : Nat
  n2 : Nat
  behind : List Char
  deriving Repr, DecidableEq

/-- Read the first square brackets of a text, if it has some. -/
def readBracket (hex : List Char) : Except ClError (Option Bracket) :=
  match cutAt '[' hex with
  | (_, none) => .ok none
  | (before, some rest) =>
    match cutAt ']' rest with
    | (_, none) => .error .emalfdb
    | (inside, some behind) =>
      match scanRange inside with
      | none => .error .emalfdb
      | some (n1, n2) =>
        if n1 > n2 ∨ n2 > acChMaxdist then
          .error .emalfdb
        else
          .ok (some ⟨before, n1, n2, behind⟩)

/-- The character of an anchor. -/
def readAnchor (hex : List Char) (n1 n2 : Nat) : Except ClError Anchor :=
  match cliHex2ui hex with
  | some (p :: _) => .ok ⟨p, n1, n2⟩
  | _ => .error .emalfdb

/-- The text without its anchors, and the anchors. -/
structure Anchored where
  hex : List Char
  left : Anchor := {}
  right : Anchor := {}
  deriving Repr, DecidableEq

/-- The brackets before a right anchor; its `else` is `i = 1`. -/
def readRightAnchor (left : Anchor) (bracket : Bracket) : Except ClError Anchored :=
  if bracket.behind.length = 2 then
    match readAnchor bracket.behind bracket.n1 bracket.n2 with
    | .error code => .error code
    | .ok right => .ok ⟨bracket.before, left, right⟩
  else
    .error .emalfdb

/-- `for(i = 0; i < 2; i++)`: the anchors of a signature. -/
def readAnchors (hexsig : List Char) : Except ClError Anchored :=
  match readBracket hexsig with
  | .error code => .error code
  | .ok none => .ok { hex := hexsig }
  | .ok (some first) =>
    if first.before.length = 2 then
      match readAnchor first.before first.n1 first.n2 with
      | .error code => .error code
      | .ok left =>
        match readBracket first.behind with
        | .error code => .error code
        | .ok none => .ok { hex := first.behind, left := left }
        | .ok (some second) =>
          if second.before.length = 2 then
            .error .emalfdb
          else
            readRightAnchor left second
    else
      readRightAnchor {} first

/-- The alternatives between two parentheses. -/
def readAlternatives (inside : List Char) : Except ClError SpecialKind :=
  let num := inside.count '|' + 1
  if num = 1 then
    .error .emalfdb
  else
    match (List.range num).mapM fun i => (cliStrtok inside i '|').bind cliHex2str with
    | none => .error .emalfdb
    | some strs =>
      if 3 * num - 1 = inside.length % 2 ^ 16 then
        .ok (.altChar ((strs.map fun str => str.headD 0).insertionSort (· ≤ ·)))
      else
        .ok (.altStr strs)

/-- What stands between two parentheses inside a pattern. -/
def readSpecial (inside : List Char) : Except ClError SpecialKind :=
  if inside = ['B'] then
    .ok .boundary
  else if inside = ['L'] then
    .ok .lineMarker
  else
    readAlternatives inside

/-- `hexnew`, the special elements and the boundary flags. -/
structure Grouped where
  hexnew : List Char := []
  specialTable : List Special := []
  boundary : Boundary := {}
  deriving Repr, DecidableEq

/-- The flag of `(B)` or `(L)` at the end of a pattern. -/
def setRight (negative line : Bool) (flags : Boundary) : Boundary :=
  if line then
    { flags with
      lineRight := true
      lineRightNegative := flags.lineRightNegative || negative }
  else
    { flags with
      right := true
      rightNegative := flags.rightNegative || negative }

/-- The flag of `(B)` or `(L)` at the start of a pattern. -/
def setLeft (negative line : Bool) (flags : Boundary) : Boundary :=
  if line then
    { flags with
      lineLeft := true
      lineLeftNegative := flags.lineLeftNegative || negative }
  else
    { flags with
      left := true
      leftNegative := flags.leftNegative || negative }

/--
`while((pt = strchr(start, '(')))`; `isFirst` tells that nothing stands before
`start`.
-/
def readGroups : Nat → Bool → List Char → Grouped → Except ClError Grouped
  | 0, _, start, grouped =>
    .ok { grouped with hexnew := grouped.hexnew ++ start }
  | fuel + 1, isFirst, start, grouped =>
    match cutAt '(' start with
    | (_, none) => .ok { grouped with hexnew := grouped.hexnew ++ start }
    | (front, some rest) =>
      let negative := front.getLast? == some '!'
      let kept := if negative then front.dropLast else front
      match cutAt ')' rest with
      | (_, none) => .error .emalfdb
      | (inside, some later) =>
        let marker := inside = ['B'] ∨ inside = ['L']
        let hexnew := grouped.hexnew ++ kept
        if inside = [] then
          .error .emalfdb
        else if marker ∧ later = [] then
          .ok { grouped with
            hexnew := hexnew
            boundary :=
              setRight negative (inside = ['L']) grouped.boundary }
        else if marker ∧ isFirst ∧ front = [] then
          readGroups fuel false later
            { grouped with
              hexnew := hexnew
              boundary :=
                setLeft negative (inside = ['L']) grouped.boundary }
        else
          match readSpecial inside with
          | .error code => .error code
          | .ok kind =>
            readGroups fuel false later
              { grouped with
                hexnew := hexnew ++ ['(', ')']
                specialTable :=
                  grouped.specialTable ++ [⟨kind, negative⟩] }

/-- The arguments of `cli_ac_addsig`. -/
structure AddSig where
  virname : List Char
  hexsig : List Char
  sigid : Nat := 0
  parts : Nat := 0
  partno : Nat := 0
  rtype : Nat := 0
  type : Nat := 0
  mindist : Nat := 0
  maxdist : Nat := 0
  offset : List Char := ['*']
  lsigid : Option (Nat × Nat) := none
  official : Bool := false
  deriving Repr, DecidableEq

/-- The pattern before its prefix is chosen. -/
def wholePatt (mindepth : Nat) (sig : AddSig) : Except ClError AcPatt :=
  if sig.hexsig.length / 2 < mindepth then
    .error .emalfdb
  else
    match readAnchors sig.hexsig with
    | .error code => .error code
    | .ok anchored =>
      match readGroups anchored.hex.length true anchored.hex {} with
      | .error code => .error code
      | .ok grouped =>
        match cliHex2ui grouped.hexnew with
        | none => .error .emalfdb
        | some pattern =>
          .ok
            { pattern := pattern
              specialTable := grouped.specialTable
              boundary := grouped.boundary
              anchorLeft := anchored.left
              anchorRight := anchored.right
              mindist := sig.mindist
              maxdist := sig.maxdist
              sigid := sig.sigid
              parts := sig.parts
              partno := sig.partno
              rtype := sig.rtype
              type := sig.type
              lsigid := sig.lsigid }

/-- `!pattern[i]`; behind its characters a pattern ends with a zero. -/
def zeroAt
    (pattern : List PatChar)
    (i : Nat) :
    Bool := pattern.getD i (.char 0) == .char 0

/-- `wprefix || zprefix` -/
def needsPrefix (maxdepth : Nat) (pattern : List PatChar) : Bool :=
  (pattern.take maxdepth).any PatChar.isWildcard || (pattern.take maxdepth).all (· == .char 0)

/-- `plen`, `ppos`, `nzplen` and `nzpos`. -/
structure PrefixSearch where
  plen : Nat := 0
  ppos : Nat := 0
  nzplen : Nat := 0
  nzpos : Nat := 0
  deriving Repr, DecidableEq

/-- `new->pattern[ppos] || new->pattern[ppos + 1]` -/
def PrefixSearch.nonzero
    (search : PrefixSearch)
    (pattern : List PatChar) :
    Bool :=
  !zeroAt pattern search.ppos || !zeroAt pattern (search.ppos + 1)

/-- The loop over `j`. -/
def prefixInner
    (mindepth maxdepth : Nat)
    (pattern : List PatChar)
    (i : Nat) :
    Nat → Nat → PrefixSearch → PrefixSearch
  | 0, _, search => search
  | fuel + 1, j, search =>
    if j < i + maxdepth ∧ j < pattern.length then
      if (pattern.getD j (.char 0)).isWildcard then
        search
      else
        let search :=
          if j - i + 1 ≥ search.plen then
            { search with plen := j - i + 1, ppos := i }
          else
            search
        if search.nonzero pattern then
          if search.plen ≥ maxdepth then
            search
          else if search.plen ≥ mindepth ∧ search.plen > search.nzplen then
            prefixInner mindepth maxdepth pattern i fuel (j + 1)
              { search with nzplen := search.plen, nzpos := search.ppos }
          else
            prefixInner mindepth maxdepth pattern i fuel (j + 1) search
        else
          prefixInner mindepth maxdepth pattern i fuel (j + 1) search
    else
      search

/-- The loop over `i`, up to `pend`. -/
def prefixOuter
    (mindepth maxdepth : Nat)
    (pattern : List PatChar) :
    Nat → Nat → PrefixSearch → PrefixSearch
  | 0, _, search => search
  | rounds + 1, i, search =>
    let search := prefixInner mindepth maxdepth pattern i maxdepth i search
    if search.plen ≥ maxdepth ∧ search.nonzero pattern then
      search
    else
      prefixOuter mindepth maxdepth pattern rounds (i + 1) search

/-- The place at which the pattern begins, and the length that is known of it. -/
def choosePrefix (mindepth maxdepth : Nat) (pattern : List PatChar) : Nat × Nat :=
  let search := prefixOuter mindepth maxdepth pattern
    (pattern.length + 1 - mindepth) 0 {}
  if !search.nonzero pattern ∧ search.nzplen ≠ 0 then
    (search.nzpos, search.nzplen)
  else
    (search.ppos, search.plen)

/-- Give a pattern its prefix, if it needs one. -/
def splitPrefix (mindepth maxdepth : Nat) (patt : AcPatt) : Except ClError AcPatt :=
  if needsPrefix maxdepth patt.pattern then
    let (ppos, plen) := choosePrefix mindepth maxdepth patt.pattern
    if plen < mindepth then
      .error .emalfdb
    else
      .ok { patt with
        hasPrefix := true
        prefixPat := patt.pattern.take ppos
        pattern := patt.pattern.drop ppos
        specialPattern := (patt.pattern.take ppos).countP (· = .special) }
  else
    .ok patt

/-- The text before the first occurrence of another one. -/
def cutText (mark : List Char) : List Char → List Char
  | [] => []
  | c :: rest =>
    if mark.isPrefixOf (c :: rest) then [] else c :: cutText mark rest

/-- `cli_mpool_virname` -/
def cliVirname (virname : List Char) (official : Bool) : Option (List Char) :=
  let name := cutText " (Clam)".toList virname
  if name = [] then
    none
  else if official then
    some name
  else
    some (name ++ ".UNOFFICIAL".toList)

/-- The offset of a pattern is computed for every file. -/
def isRelative (offdata : OffData) : Bool := offdata.type != .any && offdata.type != .absolute &&
    offdata.type != .macroGroup

/-- The pattern that `cli_ac_addsig` hands to `cli_ac_addpatt`. -/
def addsigPatt
    (reloffNum : Nat)
    (patt : AcPatt)
    (virname : List Char)
    (off : Offset) :
    AcPatt :=
  { patt with
    virname := virname
    offdata := off.offdata
    offsetMin := if isRelative off.offdata then reloffNum * 2 else off.offsetMin
    offsetMax :=
      if isRelative off.offdata then reloffNum * 2 + 1 else off.offsetMax }

/-- What a matcher notes of a pattern before it takes it in. -/
def noted (root : AcRoot) (whole patt : AcPatt) (off : Offset) : AcRoot :=
  { root with
    filter := root.filter.bind fun m => (Prefilter.filterAddAcpatt m whole).map Prod.fst
    maxpatlen :=
      max root.maxpatlen (patt.pattern.length + patt.prefixPat.length)
    acReloff :=
      if isRelative off.offdata then
        root.acReloff ++ [root.acPattable.length]
      else
        root.acReloff }

/-- `cli_ac_addsig` -/
def cliAcAddsig (root : AcRoot) (sig : AddSig) : Option (Except ClError AcRoot) :=
  match wholePatt root.acMindepth sig with
  | .error code => some (.error code)
  | .ok whole =>
    match splitPrefix root.acMindepth root.acMaxdepth whole with
    | .error code => some (.error code)
    | .ok patt =>
      match cliVirname sig.virname sig.official with
      | none => some (.error .emem)
      | some virname =>
        match cliCaloff sig.offset root.type with
        | .error code => some (.error code)
        | .ok off =>
          cliAcAddpatt (noted root whole patt off)
            (addsigPatt root.acReloff.length patt virname off)

/-- The fields that `cli_ac_addpatt` leaves as they are. -/
structure SameSettings (root later : AcRoot) : Prop where
  type : later.type = root.type
  filter : later.filter = root.filter
  mindepth : later.acMindepth = root.acMindepth
  maxdepth : later.acMaxdepth = root.acMaxdepth
  reloff : later.acReloff = root.acReloff
  maxpatlen : later.maxpatlen = root.maxpatlen

theorem addNodes_sameSettings
    (key : List UInt8)
    (root : AcRoot)
    (pt : Nat) :
    SameSettings root (addNodes root pt key).1 := by
  induction key generalizing root pt with
  | nil => exact ⟨rfl, rfl, rfl, rfl, rfl, rfl⟩
  | cons c rest ih =>
    rw [addNodes]
    cases (allocTrans root pt).trans pt c with
    | none =>
      have later := ih (newNode (allocTrans root pt) pt c rest.isEmpty)
        ((allocTrans root pt).acNodes + 1)
      exact { later with }
    | some next =>
      have later := ih (allocTrans root pt) next
      exact { later with }

variable {root added : AcRoot}

theorem cliAcAddpatt_sameSettings
    (adds : cliAcAddpatt root patt = some (.ok added)) :
    SameSettings root added := by
  have walked := addNodes_sameSettings (acKey root.acMaxdepth patt) root 0
  unfold cliAcAddpatt at adds
  simp only at adds
  split at adds
  · cases adds
  split at adds
  · cases adds
  all_goals
    cases adds
    exact { walked with }

variable {sig : AddSig}

/-- The steps of a signature that is added. -/
theorem cliAcAddsig_ok
    (adds : cliAcAddsig root sig = some (.ok added)) :
    ∃ whole patt virname off, wholePatt root.acMindepth sig = .ok whole ∧
        splitPrefix root.acMindepth root.acMaxdepth whole = .ok patt ∧
        cliVirname sig.virname sig.official = some virname ∧
        cliCaloff sig.offset root.type = .ok off ∧
        cliAcAddpatt (noted root whole patt off)
          (addsigPatt root.acReloff.length patt virname off) = some (.ok added) := by
  unfold cliAcAddsig at adds
  split at adds
  · cases adds
  rename_i whole reads
  split at adds
  · cases adds
  rename_i patt splits
  split at adds
  · cases adds
  rename_i virname isNamed
  split at adds
  · cases adds
  · rename_i off located
    exact ⟨whole, patt, virname, off, reads, splits, isNamed, located, adds⟩

/-- The numbers of a signature stand in its pattern. -/
structure Carries (sig : AddSig) (patt : AcPatt) : Prop where
  sigid : patt.sigid = sig.sigid
  parts : patt.parts = sig.parts
  partno : patt.partno = sig.partno
  mindist : patt.mindist = sig.mindist
  maxdist : patt.maxdist = sig.maxdist
  type : patt.type = sig.type
  rtype : patt.rtype = sig.rtype
  lsigid : patt.lsigid = sig.lsigid

variable {mindepth : Nat}

/-- The pattern has the numbers of its signature. -/
theorem wholePatt_carries (reads : wholePatt mindepth sig = .ok whole) : Carries sig whole := by
  unfold wholePatt at reads
  split at reads
  · cases reads
  split at reads
  · cases reads
  split at reads
  · cases reads
  split at reads
  · cases reads
  · cases reads
    exact ⟨rfl, rfl, rfl, rfl, rfl, rfl, rfl, rfl⟩

/-- Splitting off a prefix keeps them. -/
theorem splitPrefix_carries
    (carries : Carries sig whole)
    (splits : splitPrefix mindepth maxdepth whole = .ok patt) :
    Carries sig patt := by
  unfold splitPrefix at splits
  simp only at splits
  split at splits
  · split at splits
    · cases splits
    · cases splits
      exact { carries with }
  · cases splits
    exact carries

/-- Some patterns have been loaded into a matcher. -/
def Loaded (root : AcRoot) : Prop := ∃ word own group, AcInv root word own group

theorem Loaded.noting
    (loaded : Loaded root)
    (filter : Option Prefilter.Filter)
    (maxpatlen : Nat)
    (acReloff : List Nat) :
    Loaded { root with
      filter := filter
      maxpatlen := maxpatlen
      acReloff := acReloff } := by
  obtain ⟨word, own, group, inv⟩ := loaded
  exact ⟨word, own, group,
    { inv with
      words := { inv.words with }
      lists := { inv.lists with }
      groups := { inv.groups with } }⟩

/-- A matcher with some more patterns. -/
structure AcGrows (root added : AcRoot) (new : List AcPatt) : Prop where
  loaded : Loaded added
  pattable : added.acPattable = root.acPattable ++ new
  type : added.type = root.type
  mindepth : added.acMindepth = root.acMindepth
  maxdepth : added.acMaxdepth = root.acMaxdepth

theorem AcGrows.refl (loaded : Loaded root) : AcGrows root root [] :=
  ⟨loaded, (List.append_nil _).symm, rfl, rfl, rfl⟩

/-- Two additions. -/
theorem AcGrows.trans
    {first second third : AcRoot}
    {new newer : List AcPatt}
    (left : AcGrows first second new)
    (right : AcGrows second third newer) :
    AcGrows first third (new ++ newer) :=
  ⟨right.loaded, by rw [right.pattable, left.pattable, List.append_assoc],
    right.type.trans left.type, right.mindepth.trans left.mindepth,
    right.maxdepth.trans left.maxdepth⟩

/-- A pattern of the table that was made of a signature. -/
def StoredAs (mindepth maxdepth : Nat) (sig : AddSig) (patt : AcPatt) : Prop :=
  ∃ whole split reloffNum virname off, wholePatt mindepth sig = .ok whole ∧
      splitPrefix mindepth maxdepth whole = .ok split ∧
      patt = placed maxdepth (addsigPatt reloffNum split virname off)

theorem StoredAs.carries (stored : StoredAs mindepth maxdepth sig patt) : Carries sig patt := by
  obtain ⟨whole, split, reloffNum, virname, off, reads, splits, rfl⟩ := stored
  have carries := splitPrefix_carries (wholePatt_carries reads) splits
  exact { carries with }

/-- A signature adds one pattern. -/
theorem cliAcAddsig_grows
    (loaded : Loaded root)
    (adds : cliAcAddsig root sig = some (.ok added)) :
    ∃ patt, AcGrows root added [patt] ∧ StoredAs root.acMindepth root.acMaxdepth sig patt := by
  obtain ⟨whole, split, virname, off, reads, splits, -, -, adds⟩ := cliAcAddsig_ok adds
  have isLoaded : Loaded (noted root whole split off) := loaded.noting _ _ _
  obtain ⟨word, own, group, inv⟩ := isLoaded
  have settings := cliAcAddpatt_sameSettings adds
  obtain ⟨kept, -, -, table⟩ := cliAcAddpatt_inv inv adds
  exact ⟨_, ⟨kept, table, settings.type, settings.mindepth, settings.maxdepth⟩,
    whole, split, root.acReloff.length, virname, off, reads, splits, rfl⟩

end LibClamav.Ac
