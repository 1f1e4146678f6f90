import LibClamav.AcAddsig
import LibClamav.BmSource

namespace LibClamav.Db

open CText Ac Bm List

/-!
# `cli_parse_add`

A signature goes to one of the two matchers of a target: to the Aho-Corasick
matcher in parts if it has gaps, as a whole if it has wildcards or belongs to a
logical signature, and to the Boyer-Moore matcher otherwise.
-/

variable {parts : Nat}

/-- The attributes of a logical signature, `struct cli_lsig_tdb`. -/
structure LsigTdb where
  target : Option Nat := none
  engine : Option (Nat × Nat) := none
  filesize : Option (Nat × Nat) := none
  ep : Option (Nat × Nat) := none
  nos : Option (Nat × Nat) := none
  icongrp1 : Option (List Char) := none
  icongrp2 : Option (List Char) := none
  container : Option Nat := none
  subsigs : Nat := 0
  deriving Repr, DecidableEq

/-- `struct cli_ac_lsig` -/
structure AcLsig where
  id : Nat
  logic : List Char
  virname : List Char := []
  tdb : LsigTdb := {}
  bcIdx : Nat := 0
  deriving Repr, DecidableEq

/-- `struct cli_matcher`; the filter is kept in the first of its two parts. -/
structure Matcher where
  ac : AcRoot
  bm : BmRoot
  acOnly : Bool := false
  acPartsigs : Nat := 0
  acLsigtable : List AcLsig := []

/-- The arguments of `cli_parse_add`. -/
structure ParseArgs where
  virname : List Char
  hexsig : List Char
  rtype : Nat := 0
  type : Nat := 0
  offset : List Char := ['*']
  lsigid : Option (Nat × Nat) := none
  official : Bool := false
  deriving Repr, DecidableEq

/-- The text of a part, and the distances to the part before it. -/
structure Part where
  hex : List Char
  mindist : Nat := 0
  maxdist : Nat := 0
  deriving Repr, DecidableEq

variable {items : List (Option Part)}

/-- `cli_isnumber(n)` and `atoi(n) >= 0`. -/
def readDistance (text : List Char) : Option Nat :=
  if cliIsnumber text ∧ atoi text < 2 ^ 31 then some (atoi text) else none

/-- A distance that may be left out. -/
def readBound (text : Option (List Char)) : Option Nat :=
  match text with
  | none => some 0
  | some number => readDistance number

/-- The distances between two braces. -/
def readGap (inside : List Char) : Option (Nat × Nat) :=
  if '-' ∈ inside then
    match readBound (cliStrtok inside 0 '-'),
        readBound (cliStrtok inside 1 '-'), cliStrtok inside 2 '-' with
    | some mindist, some maxdist, none => some (mindist, maxdist)
    | _, _, _ => none
  else
    (readDistance inside).map fun distance => (distance, distance)

/-- A character that separates two parts. -/
def isSeparator (c : Char) : Bool := c == '\x7b' || c == '*'

/--
The loop over the parts of a signature with braces; `gaps` separators are left.
An unreadable part is `none`.  So is the rest of a text with fewer separators
than were counted, because some stand inside of braces.
-/
def bracedParts : Nat → List Char → Nat → Nat → List (Option Part)
  | 0, start, mindist, maxdist => [some ⟨start, mindist, maxdist⟩]
  | gaps + 1, start, mindist, maxdist =>
    match start.span fun c => !isSeparator c with
    | (_, []) => [none]
    | (hex, separator :: behind) =>
      some ⟨hex, mindist, maxdist⟩ ::
        if separator = '*' then
          bracedParts gaps behind 0 0
        else
          match cutAt '\x7d' behind with
          | (_, none) => [none]
          | (inside, some next) =>
            match readGap inside with
            | none => [none]
            | some (nextMin, nextMax) =>
              bracedParts gaps next nextMin nextMax

/-- The parts of a signature with asterisks only. -/
def starParts (gaps : Nat) (hexsig : List Char) : List (Option Part) :=
  (range (gaps + 1)).map fun i => (cliStrtok hexsig i '*').map fun hex => { hex := hex }

/-- The parts of a signature with gaps. -/
def signatureParts (hexsig : List Char) : List (Option Part) :=
  let gaps := hexsig.countP isSeparator
  if '\x7b' ∈ hexsig then
    bracedParts gaps hexsig 0 0
  else
    starParts gaps hexsig

/-- The arguments for one part; two numbers have 16 bits. -/
def ParseArgs.part
    (args : ParseArgs)
    (sigid parts partno : Nat)
    (part : Part) :
    AddSig :=
  { virname := args.virname
    hexsig := part.hex
    sigid := sigid
    parts := parts % 2 ^ 16
    partno := partno % 2 ^ 16
    rtype := args.rtype
    type := args.type
    mindist := part.mindist
    maxdist := part.maxdist
    offset := args.offset
    lsigid := args.lsigid
    official := args.official }

/-- Add the parts of a signature, from number `partno` on. -/
def addParts
    (args : ParseArgs)
    (sigid parts : Nat) :
    AcRoot → Nat → List (Option Part) → Option (Except ClError AcRoot)
  | root, _, [] => some (.ok root)
  | _, _, none :: _ => some (.error .emalfdb)
  | root, partno, some part :: rest =>
    match cliAcAddsig root (args.part sigid parts partno part) with
    | none => none
    | some (.error code) => some (.error code)
    | some (.ok added) => addParts args sigid parts added (partno + 1) rest

/-- `sscanf(hexsig, "$\x7b%u-%u\x7d%u$", ...) == 3`, with the last number. -/
def scanMacro (hexsig : List Char) : Option Nat :=
  match hexsig with
  | '$' :: '\x7b' :: range =>
    match scanUnsigned range with
    | some (_, '-' :: upper) =>
      match scanUnsigned upper with
      | some (_, '\x7d' :: group) => (scanUnsigned group).map Prod.fst
      | _ => none
    | _ => none
  | _ => none

/-- The checks of a macro; a good one ends with `CL_EMEM` all the same. -/
def macroError (args : ParseArgs) : ClError :=
  if args.hexsig.getLast? ≠ some '$' ∨ args.lsigid = none then
    .emalfdb
  else
    match scanMacro args.hexsig with
    | none => .emalfdb
    | some tid => if tid ≥ 32 then .emalfdb else .emem

/-- A signature that the Boyer-Moore matcher cannot have. -/
def needsAc (root : Matcher) (args : ParseArgs) : Bool :=
  root.acOnly || args.type != 0 || args.lsigid.isSome ||
    args.hexsig.any (fun c => c == '?' || c == '(' || c == '[') ||
    (root.bm.bmOffmode && (args.offset == ['*'] || args.offset.contains ',')) ||
    cutText ['V', 'I'] args.offset != args.offset || args.offset.contains '$'

/-- The last branch of `cli_parse_add`. -/
def addStatic (root : Matcher) (args : ParseArgs) : Except ClError Matcher :=
  match cliHex2str args.hexsig, cliVirname args.virname args.official with
  | none, _ => .error .emalfdb
  | some _, none => .error .emem
  | some bytes, some virname =>
    match cliBmAddpatt { root.bm with filter := root.ac.filter }
        { pattern := bytes, length := bytes.length, virname := virname }
        args.offset with
    | .error code => .error code
    | .ok bm =>
      .ok { root with
        bm := bm
        ac := { root.ac with
          filter := bm.filter
          maxpatlen := max root.ac.maxpatlen bytes.length } }

/-- Give the logical signature of a pattern the name of the pattern. -/
def nameLsig (args : ParseArgs) (table : List AcLsig) : List AcLsig :=
  match args.lsigid, cliVirname args.virname args.official with
  | some (id, _), some virname =>
    table.modify id fun lsig => { lsig with virname := virname }
  | _, _ => table

/-- `cli_parse_add` -/
def cliParseAdd
    (root : Matcher)
    (args : ParseArgs) :
    Option (Except ClError Matcher) :=
  if args.hexsig.head? = some '$' then
    some (.error (macroError args))
  else if '\x7b' ∈ args.hexsig ∨ '*' ∈ args.hexsig then
    match addParts args (root.acPartsigs + 1)
        (args.hexsig.countP isSeparator + 1) root.ac 1
        (signatureParts args.hexsig) with
    | none => none
    | some (.error code) =>
      some (.error (if '\x7b' ∈ args.hexsig then .emalfdb else code))
    | some (.ok ac) =>
      some (.ok { root with
        ac := ac
        acPartsigs := root.acPartsigs + 1
        acLsigtable := nameLsig args root.acLsigtable })
  else if needsAc root args then
    match cliAcAddsig root.ac (args.part 0 0 0 { hex := args.hexsig }) with
    | none => none
    | some (.error code) => some (.error code)
    | some (.ok ac) =>
      some (.ok { root with
        ac := ac
        acLsigtable := nameLsig args root.acLsigtable })
  else
    some (addStatic root args)

/-- The patterns that were made of the parts of a signature. -/
def StoredParts
    (mindepth maxdepth : Nat)
    (args : ParseArgs)
    (sigid parts : Nat) :
    Nat → List (Option Part) → List AcPatt → Prop
  | _, [], [] => True
  | partno, some part :: items, patt :: patts =>
    StoredAs mindepth maxdepth (args.part sigid parts partno part) patt ∧
      StoredParts mindepth maxdepth args sigid parts (partno + 1) items patts
  | _, _, _ => False

variable {args : ParseArgs} {sigid : Nat}

/-- The parts of a signature add their patterns. -/
theorem addParts_grows
    (items : List (Option Part))
    {root added : AcRoot}
    {partno : Nat}
    (loaded : Loaded root)
    (adds : addParts args sigid parts root partno items = some (.ok added)) :
    ∃ new, AcGrows root added new ∧
      StoredParts root.acMindepth root.acMaxdepth args sigid parts partno items new := by
  induction items generalizing root added partno with
  | nil =>
    cases adds
    exact ⟨[], AcGrows.refl loaded, trivial⟩
  | cons item items ih =>
    cases item with
    | none => cases adds
    | some part =>
      rw [addParts] at adds
      split at adds
      · cases adds
      · cases adds
      rename_i middle addsOne
      obtain ⟨patt, grows, stored⟩ := cliAcAddsig_grows loaded addsOne
      obtain ⟨new, more, storedRest⟩ := ih grows.loaded adds
      rw [grows.mindepth, grows.maxdepth] at storedRest
      exact ⟨patt :: new, grows.trans more, stored, storedRest⟩

variable {mindepth maxdepth : Nat}

theorem StoredParts.get
    {partno : Nat}
    {patts : List AcPatt}
    {k : Nat}
    {patt : AcPatt}
    (stored : StoredParts mindepth maxdepth args sigid parts partno items patts)
    (isPatt : patts[k]? = some patt) :
    ∃ part, items[k]? = some (some part) ∧
      StoredAs mindepth maxdepth (args.part sigid parts (partno + k) part)
        patt := by
  fun_induction StoredParts mindepth maxdepth args sigid parts partno items patts
      generalizing k patt with
  | case1 => cases isPatt
  | case2 partno part items first rest ih =>
    cases k with
    | zero =>
      cases isPatt
      exact ⟨part, rfl, stored.1⟩
    | succ k =>
      obtain ⟨other, isOther, isStored⟩ := ih stored.2 isPatt
      refine ⟨other, isOther, ?_⟩
      rw [Nat.add_right_comm] at isStored
      exact isStored
  | case3 => cases stored

theorem StoredParts.of_mem
    {partno : Nat}
    {patts : List AcPatt}
    {patt : AcPatt}
    (stored : StoredParts mindepth maxdepth args sigid parts partno items patts)
    (mem : patt ∈ patts) :
    ∃ part number, StoredAs mindepth maxdepth (args.part sigid parts number part) patt := by
  obtain ⟨k, inside, isPatt⟩ := getElem_of_mem mem
  obtain ⟨part, -, isStored⟩ := stored.get (getElem?_eq_getElem inside)
  rw [isPatt] at isStored
  exact ⟨part, partno + k, isStored⟩

/-- What an evaluation reads of an entry. -/
def AcLsig.core (lsig : AcLsig) : List Char × LsigTdb × Nat := (lsig.logic, lsig.tdb, lsig.bcIdx)

/-- A matcher with some more patterns and entries. -/
structure Grows (root added : Matcher) (new : List AcPatt)
    (entries : List (List Char × LsigTdb × Nat)) : Prop where
  ac : AcGrows root.ac added.ac new
  table : added.acLsigtable.map AcLsig.core = root.acLsigtable.map AcLsig.core ++ entries

variable {root : Matcher}

theorem Grows.refl (loaded : Loaded root.ac) : Grows root root [] [] :=
  ⟨AcGrows.refl loaded, (append_nil _).symm⟩

theorem Grows.trans
    {first second third : Matcher}
    {new newer : List AcPatt}
    {entries later : List (List Char × LsigTdb × Nat)}
    (left : Grows first second new entries)
    (right : Grows second third newer later) :
    Grows first third (new ++ newer) (entries ++ later) :=
  ⟨left.ac.trans right.ac, by rw [right.table, left.table, append_assoc]⟩

theorem nameLsig_core
    (args : ParseArgs)
    (table : List AcLsig) :
    (nameLsig args table).map AcLsig.core = table.map AcLsig.core := by
  unfold nameLsig
  split
  · refine ext_getElem? fun i => ?_
    rw [getElem?_map, getElem?_map, getElem?_modify]
    cases table[i]? with
    | none => rfl
    | some lsig =>
      split <;> rfl
  · rfl

variable {added : Matcher}

/-- A static signature adds none. -/
theorem addStatic_ok
    (adds : addStatic root args = .ok added) :
    ∃ filter maxpatlen,
      added.ac = { root.ac with filter := filter, maxpatlen := maxpatlen } ∧
        added.acLsigtable = root.acLsigtable ∧
        added.acPartsigs = root.acPartsigs := by
  unfold addStatic at adds
  split at adds
  · cases adds
  · cases adds
  split at adds
  · cases adds
  · cases adds
    exact ⟨_, _, rfl, rfl, rfl⟩

/-- What a line adds, by its kind. -/
theorem cliParseAdd_cases
    (loaded : Loaded root.ac)
    (adds : cliParseAdd root args = some (.ok added)) :
    ∃ new, Grows root added new [] ∧ (('\x7b' ∈ args.hexsig ∨ '*' ∈ args.hexsig) ∧
          added.acPartsigs = root.acPartsigs + 1 ∧
          StoredParts root.ac.acMindepth root.ac.acMaxdepth args
            (root.acPartsigs + 1) (args.hexsig.countP isSeparator + 1) 1
            (signatureParts args.hexsig) new ∨
        ¬ ('\x7b' ∈ args.hexsig ∨ '*' ∈ args.hexsig) ∧ added.acPartsigs = root.acPartsigs ∧
          ∀ patt ∈ new, StoredAs root.ac.acMindepth root.ac.acMaxdepth
            (args.part 0 0 0 { hex := args.hexsig }) patt) := by
  unfold cliParseAdd at adds
  have named := nameLsig_core args root.acLsigtable
  split at adds
  · cases adds
  split at adds
  · rename_i isSplit
    split at adds
    · cases adds
    · cases adds
    rename_i ac addsParts
    cases adds
    obtain ⟨new, grows, stored⟩ := addParts_grows _ loaded addsParts
    exact ⟨new, ⟨grows, by rw [named, append_nil]⟩, .inl ⟨isSplit, rfl, stored⟩⟩
  rename_i isWhole
  split at adds
  · split at adds
    · cases adds
    · cases adds
    rename_i ac addsOne
    cases adds
    obtain ⟨patt, grows, stored⟩ := cliAcAddsig_grows loaded addsOne
    refine ⟨[patt], ⟨grows, by rw [named, append_nil]⟩, .inr ⟨isWhole, rfl, ?_⟩⟩
    intro other isPatt
    rw [mem_singleton.mp isPatt]
    exact stored
  · obtain ⟨filter, maxpatlen, isAc, sameTable, sameCount⟩ := addStatic_ok (Option.some.inj adds)
    refine ⟨[], ⟨?_, by rw [sameTable, append_nil]⟩,
      .inr ⟨isWhole, sameCount, fun patt impossible => (nomatch impossible)⟩⟩
    rw [isAc]
    exact ⟨loaded.noting _ _ _, (append_nil _).symm, rfl, rfl, rfl⟩

/-- All patterns it adds are its own. -/
theorem cliParseAdd_grows
    (loaded : Loaded root.ac)
    (adds : cliParseAdd root args = some (.ok added)) :
    ∃ new, Grows root added new [] ∧ ∀ patt ∈ new, patt.lsigid = args.lsigid := by
  obtain ⟨new, grows, which⟩ := cliParseAdd_cases loaded adds
  refine ⟨new, grows, fun patt mem => ?_⟩
  rcases which with ⟨-, -, stored⟩ | ⟨-, -, stored⟩
  · obtain ⟨part, partno, isStored⟩ := stored.of_mem mem
    exact isStored.carries.lsigid
  · exact (stored patt mem).carries.lsigid

end LibClamav.Db
