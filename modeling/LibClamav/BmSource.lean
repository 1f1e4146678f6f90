import LibClamav.FilterSource

namespace LibClamav.Bm

/-!
# The Boyer-Moore matcher

`bm_suffix` is a hash table over blocks of three bytes.  A pattern is put into
the first empty bucket that one of its blocks has, and otherwise into the
bucket of its first block; the bytes before its block become its prefix.  The
chain of a bucket is kept sorted by first byte, and only the count of its head
is kept up to date.
-/

/-- `BM_MIN_LENGTH`, which equals `BM_BLOCK_SIZE`. -/
def bmMinLength : Nat := 3

/--
`struct cli_bm_patt`.  `prefixBytes` are the bytes from `prefix` on, which run
into those of `pattern`; `boundaryEol` is the bit `BM_BOUNDARY_EOL`.
-/
structure BmPatt where
  pattern : List UInt8
  prefixBytes : List UInt8 := []
  virname : List Char := []
  offdata : OffData := {}
  offsetMin : Nat := 0
  offsetMax : Nat := 0
  length : Nat
  prefixLength : Nat := 0
  cnt : Nat := 0
  pattern0 : UInt8 := 0
  boundaryEol : Bool := false
  filesize : Nat := 0
  deriving Repr, DecidableEq

/-- The fields of `struct cli_matcher` that this matcher uses. -/
structure BmRoot where
  type : Nat := 0
  filter : Option Prefilter.Filter := none
  bmShift : Nat → Nat
  bmSuffix : Nat → List BmPatt
  bmPattab : List BmPatt := []
  bmOffmode : Bool := false
  bmPatterns : Nat := 0
  bmReloffNum : Nat := 0
  bmAbsoffNum : Nat := 0

/-- `HASH(a,b,c)`, stored in 16 bits. -/
def bmHash (a b c : UInt8) : Nat := (211 * a.toNat + 37 * b.toNat + c.toNat) % 2 ^ 16

/-- The hash of the block at one index. -/
def bmHashAt (bytes : List UInt8) (i : Nat) : Nat :=
  bmHash (byteAt bytes i) (byteAt bytes (i + 1)) (byteAt bytes (i + 2))

/-- `cli_bm_init` -/
def cliBmInit (root : BmRoot) : BmRoot :=
  { root with bmShift := fun _ => 1, bmSuffix := fun _ => [] }

/-- The first block from `i` on whose bucket is empty. -/
def freeBlock (root : BmRoot) (patt : BmPatt) : Nat → Nat → Option Nat
  | 0, _ => none
  | fuel + 1, i =>
    if i + bmMinLength ≤ patt.length then
      if root.bmSuffix (bmHashAt patt.pattern i) = [] then
        some i
      else
        freeBlock root patt fuel (i + 1)
    else
      none

/-- Let a pattern begin at its block `i`. -/
def shiftPatt (patt : BmPatt) (i : Nat) : BmPatt :=
  if i = 0 then
    patt
  else
    { patt with
      prefixBytes := patt.pattern
      prefixLength := i
      pattern := patt.pattern.drop i
      length := patt.length - i }

/-- Insert a pattern behind the head of a chain. -/
def placeBehind (patt : BmPatt) : List BmPatt → List BmPatt
  | [] => [patt]
  | next :: rest =>
    if next.pattern0 ≤ patt.pattern0 then
      patt :: next :: rest
    else
      next :: placeBehind patt rest

/-- Insert a pattern into a chain; the head counts. -/
def chainInsert (patt : BmPatt) (chain : List BmPatt) : List BmPatt :=
  match chain with
  | [] => [{ patt with cnt := (patt.cnt + 1) % 2 ^ 16 }]
  | head :: rest =>
    if head.pattern0 ≤ patt.pattern0 then
      { patt with cnt := (head.cnt + 1) % 2 ^ 16 } :: head :: rest
    else
      { head with cnt := (head.cnt + 1) % 2 ^ 16 } :: placeBehind patt rest

/-- `cli_bm_addpatt` -/
def cliBmAddpatt
    (root : BmRoot)
    (patt : BmPatt)
    (offset : List Char) :
    Except ClError BmRoot :=
  if patt.length < bmMinLength then
    .error .emalfdb
  else
    match cliCaloff offset root.type with
    | .error code => .error code
    | .ok off =>
      let isAny := off.offdata.type = .any
      let isAbsolute := off.offdata.type = .absolute
      let shifted :=
        match freeBlock root patt patt.length 0 with
        | some i => shiftPatt patt i
        | none => patt
      let idx := bmHashAt shifted.pattern 0
      let placed :=
        { shifted with
          offdata := off.offdata
          offsetMin :=
            if root.bmOffmode ∧ ¬ isAbsolute then root.bmPatterns
            else off.offsetMin
          offsetMax := off.offsetMax
          pattern0 := byteAt shifted.pattern 0 }
      .ok
        { root with
          bmAbsoffNum :=
            if isAbsolute then root.bmAbsoffNum + 1 else root.bmAbsoffNum
          bmReloffNum :=
            if isAny ∨ isAbsolute then root.bmReloffNum
            else root.bmReloffNum + 1
          filter := root.filter.bind fun m =>
            (Prefilter.filterAddStatic m (patt.pattern.take patt.length)).map Prod.fst
          bmShift := fun h =>
            if h = idx then min (root.bmShift h) 0 else root.bmShift h
          bmSuffix := fun h =>
            if h = idx then chainInsert placed (root.bmSuffix h)
            else root.bmSuffix h
          bmPattab :=
            if root.bmOffmode then root.bmPattab ++ [placed]
            else root.bmPattab
          bmPatterns := root.bmPatterns + 1 }

/-- `struct cli_bm_off`; `cnt` is the length of `offtab`. -/
structure BmOff where
  offset : List Nat
  offtab : List Nat
  pos : Nat
  deriving Repr, DecidableEq

/-- The return value, and the pattern it names. -/
inductive BmResult where
  | clean
  | virus (patt : BmPatt)
  | error (code : ClError)
  deriving Repr, DecidableEq

/-- What one pattern of a chain leads to. -/
inductive BmTry where
  | next
  | virus
  | error (code : ClError)
  deriving Repr, DecidableEq

/--
`for(j = 0; j < p->length + p->prefix_length && off < length; j++, off++)`:
`found` and `j` after the loop.
-/
def compareLoop
    (buffer pt : List UInt8)
    (start total : Nat) :
    Nat → Nat → Bool × Nat
  | 0, j => (true, j)
  | fuel + 1, j =>
    if j < total ∧ start + j < buffer.length then
      if byteAt buffer (start + j) = byteAt pt j then
        compareLoop buffer pt start total fuel (j + 1)
      else
        (false, j)
    else
      (true, j)

/-- The offset test with an offset table. -/
def offTableAllows (offset i : Nat) (offdata : Option BmOff) (p : BmPatt) : Bool :=
  match offdata with
  | none => true
  | some table =>
    let here := (offset + i - p.prefixLength) % 2 ^ 32
    if p.offdata.type = .absolute then
      p.offsetMin == here
    else
      table.offset.getD p.offsetMin offNone != offNone &&
        table.offset.getD p.offsetMin offNone == here

/-- The offset test of a found pattern without an offset table. -/
def offRangeAllows
    (file : FileMap)
    (target : Nat)
    (offset i : Nat)
    (p : BmPatt)
    (info : TargetInfo) :
    BmTry × TargetInfo :=
  let (range, info) :=
    if p.offdata.type = .absolute then
      (.ok (p.offsetMin, p.offsetMax), info)
    else
      cliCaloffRelative file target info p.offdata
  match range with
  | .error code => (.error code, info)
  | .ok (offMin, offMax) =>
    let off := (offset + i - p.prefixLength) % 2 ^ 32
    if offMin = offNone ∨ offMax < off ∨ offMin > off then
      (.next, info)
    else
      (.virus, info)

/-- The two bytes that are compared before the whole pattern is. -/
def quickCheck (buffer : List UInt8) (i : Nat) (p : BmPatt) : Bool :=
  let idxchk := (min p.length (buffer.length - i) - 1) % 2 ^ 16
  idxchk == 0 || (byteAt buffer (i + idxchk) == byteAt p.pattern idxchk &&
      byteAt buffer (i + idxchk / 2) == byteAt p.pattern (idxchk / 2))

/-- One round of the loop over a chain, for a pattern with the right byte. -/
def bmTryPatt
    (file : FileMap)
    (target : Nat)
    (buffer : List UInt8)
    (offset i : Nat)
    (offdata : Option BmOff)
    (p : BmPatt)
    (info : TargetInfo) :
    BmTry × TargetInfo :=
  if (i + p.length) % 2 ^ 32 > buffer.length ∨ p.prefixLength > i then
    (.next, info)
  else if !offTableAllows offset i offdata p then
    (.next, info)
  else if !quickCheck buffer i p then
    (.next, info)
  else
    let start := i - p.prefixLength
    let pt := if p.prefixLength ≠ 0 then p.prefixBytes else p.pattern
    let total := p.length + p.prefixLength
    let (found, j) := compareLoop buffer pt start total total 0
    if found ∧ p.boundaryEol ∧ start + j ≠ buffer.length then
      (.next, info)
    else if found ∧ total = j then
      if offdata.isNone ∧ p.offsetMin ≠ offAny then
        offRangeAllows file target offset i p info
      else
        (.virus, info)
    else
      (.next, info)

/-- The loop over a chain; `pchain` tells that the group has been reached. -/
def bmChainLoop
    (file : FileMap)
    (target : Nat)
    (buffer : List UInt8)
    (offset i : Nat)
    (offdata : Option BmOff) :
    Bool → List BmPatt → TargetInfo → BmResult × TargetInfo
  | _, [], info => (.clean, info)
  | pchain, p :: rest, info =>
    if p.pattern0 ≠ byteAt buffer i then
      if pchain then
        (.clean, info)
      else
        bmChainLoop file target buffer offset i offdata false rest info
    else
      match bmTryPatt file target buffer offset i offdata p info with
      | (.virus, info) => (.virus p, info)
      | (.error code, info) => (.error code, info)
      | (.next, info) =>
        bmChainLoop file target buffer offset i offdata true rest info

/-- `p && p->cnt == 1 && p->pattern0 != prefix` -/
def skipsChain (buffer : List UInt8) (i : Nat) (chain : List BmPatt) : Bool :=
  match chain with
  | [] => false
  | p :: _ => p.cnt == 1 && p.pattern0 != byteAt buffer i

/-- Pass over the table entries that lie at or before `off`. -/
def offAdvance (offtab : List Nat) (off : Nat) : Nat → Nat → Nat
  | 0, pos => pos
  | fuel + 1, pos =>
    if pos < offtab.length ∧ off ≥ offtab.getD pos 0 then
      offAdvance offtab off fuel (pos + 1)
    else
      pos

/-- Where the scan goes on; no index is its `return CL_CLEAN`. -/
def bmNext
    (offset i shift : Nat)
    (offdata : Option BmOff) :
    Option Nat × Option BmOff :=
  match offdata with
  | none => (some (i + shift), none)
  | some table =>
    let off := (offset + i) % 2 ^ 32
    let pos := offAdvance table.offtab off table.offtab.length table.pos
    let passed := some { table with pos := pos }
    if pos = table.offtab.length ∨ off ≥ table.offtab.getD pos 0 then
      (none, passed)
    else
      (some (i + (table.offtab.getD pos 0 - off)), passed)

/-- The scanning loop. -/
def bmScanLoop
    (root : BmRoot)
    (file : FileMap)
    (buffer : List UInt8)
    (offset : Nat) :
    Nat → Nat → Option BmOff → TargetInfo → BmResult × Option BmOff
  | 0, _, offdata, _ => (.clean, offdata)
  | fuel + 1, i, offdata, info =>
    if i + bmMinLength ≤ buffer.length then
      let idx := bmHashAt buffer i
      let shift := root.bmShift idx
      let chain := root.bmSuffix idx
      let goOn (shift : Nat) (info : TargetInfo) :=
        match bmNext offset i shift offdata with
        | (none, offdata) => (.clean, offdata)
        | (some next, offdata) =>
          bmScanLoop root file buffer offset fuel next offdata info
      if shift ≠ 0 then
        goOn shift info
      else if skipsChain buffer i chain then
        goOn 1 info
      else
        match bmChainLoop file root.type buffer offset i offdata false chain
            info with
        | (.clean, info) => goOn 1 info
        | (result, _) => (result, offdata)
    else
      (.clean, offdata)

/-- The entry of an offset table at which the scan of a buffer starts. -/
def offStart (offset : Nat) (offtab : List Nat) : Nat → Nat
  | 0 => 0
  | pos + 1 =>
    if offtab.getD (pos + 1) 0 > offset then
      offStart offset offtab pos
    else
      pos + 1

/-- `cli_bm_scanbuff` on an initialised matcher. -/
def cliBmScanbuff
    (root : BmRoot)
    (file : FileMap)
    (buffer : List UInt8)
    (offset : Nat)
    (offdata : Option BmOff) :
    BmResult × Option BmOff :=
  if buffer.length < bmMinLength then
    (.clean, offdata)
  else
    match offdata with
    | none =>
      bmScanLoop root file buffer offset buffer.length 0 none {}
    | some table =>
      if table.offtab = [] then
        (.clean, offdata)
      else
        let last :=
          if table.pos = table.offtab.length then table.pos - 1
          else table.pos
        let before := offStart offset table.offtab last
        let pos :=
          if table.offtab.getD before 0 < offset then before + 1
          else before
        if pos ≥ table.offtab.length then
          (.clean, some { table with pos := pos })
        else
          bmScanLoop root file buffer offset buffer.length
            ((table.offtab.getD pos 0 + 2 ^ 32 - offset % 2 ^ 32) % 2 ^ 32)
            (some { table with pos := pos }) {}

end LibClamav.Bm
