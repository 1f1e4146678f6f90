import LibClamav.StructuredCommand
import LibClamav.ScanLimits

namespace LibClamav.Scan

/-!
# Scanning of objects and what they contain

`cli_magic_scandesc` scans an object: its type decides which scanner unpacks it, and that
scanner calls `cli_magic_scandesc` again for each part.  `cli_scanraw` matches signatures
in the object itself and looks into what is embedded in it.

An object is given by what the library finds in it.  The scanners of the formats are
programs that scan parts, ask for the limits, and return; they keep the context otherwise.
The text that a converter makes of a document is an object as well, which is scanned by
`cli_scanfile`; it need not be a part of what is scanned, so that texts of texts are bounded
by a depth.
-/

open Structured (Converter)

/-- Return codes. -/
inductive Ret where
  | clean
  | virus
  | emalfdb
  | estat
  | eopen
  | eread
  | emem
  | ecreat
  | ewrite
  | eunlink
  | emaxrec
  | emaxsize
  | emaxfiles
  | eformat
  | euserabort
  /-- the other errors -/
  | error (code : Nat)
  deriving Repr, DecidableEq

/-- `cli_file_t`, as far as `cli_magic_scandesc` and `cli_scanraw` tell types apart. -/
inductive FileType where
  | any | ignored | error
  | rar | zip | gz | bz | arj | nulsft | autoit | msszdd | mscab | html | htmlUtf16 | script
  | rtf | mail | tnef | uuencoded | mschm | msole2 | sevenZip | posixTar | oldTar
  | cpioOld | cpioOdc | cpioNewc | cpioCrc | binhex | screnc | riff | graphics | pdf | ps
  | cryptff | elf | macho | machoUnibin | sis | binaryData
  | textAscii | textUtf16be | textUtf16le | textUtf8 | msexe | other
  deriving Repr, DecidableEq

/-- The cases of the first switch that set `container_type` and `container_size`. -/
def FileType.isContainer (type : FileType) : Bool :=
  type ∈ [.rar, .zip, .arj, .nulsft, .autoit, .mscab, .rtf, .mail, .mschm, .msole2, .sevenZip,
    .posixTar, .oldTar, .cpioOld, .cpioOdc, .cpioNewc, .cpioCrc, .pdf, .ps, .sis]

/-- The text types of the second switch. -/
def FileType.isText (type : FileType) : Bool :=
  type ∈ [.textAscii, .textUtf16be, .textUtf16le, .textUtf8]

/-- The documents that are converted to text. -/
inductive Document where
  | ole2
  | pdf
  | ps
  deriving Repr, DecidableEq

def FileType.document : FileType → Option Document
  | .msole2 => some .ole2
  | .pdf => some .pdf
  | .ps => some .ps
  | _ => none

/-- The programs that are tried, one after the other. -/
def Document.converters : Document → List Converter
  | .ole2 => [.catdoc, .catppt]
  | .pdf => [.pdftotext]
  | .ps => [.ps2txt]

abbrev Name := List UInt8

/-- What is known of an object without looking into it. -/
structure Info where
  /-- the name of its file -/
  name : Name
  /-- its MD5 and length -/
  digest : Nat
  size : Nat
  type : FileType
  /-- its digest is a false positive signature -/
  falsePositive : Bool
  fstatFails : Bool
  fmapFails : Bool
  bitsetFails : Bool
  deriving Repr, DecidableEq

mutual

/-- An object. -/
inductive Object where
  /--
  `bare` is what matching it without types returns, `mail` matching it as mail;
  `unpack` is the scanner of the first switch, `later` that of the second.
  -/
  | mk (info : Info) (bare mail : Ret) (unpack : Script) (raw : Bool → Raw) (later : Script)

/-- The scanner of a format. -/
inductive Script where
  /-- No scanner is called. -/
  | absent
  | done (ret : Ret)
  /-- `cli_checklimits` for a size -/
  | checklimits (need : Nat) (next : Bool → Script)
  /-- `cli_found_possibly_unwanted`, which does not make it a virus -/
  | unwanted (next : Script)
  | scan (part : Object) (next : Ret → Script)

/-- What `cli_fmap_scandesc` returns in `cli_scanraw`. -/
inductive Raw where
  | matched (ret : Ret)
  /-- A type: what is embedded, and the scanner of the last switch with its container type. -/
  | typed (found : Found) (container : Option (FileType × Nat)) (last : Script)

/-- The embedded types in the order of their offsets, those that are looked into. -/
inductive Found where
  | nil
  | sfx (type : FileType) (size : Nat) (script : Script) (rest : Found)
  /-- Not the header of an executable. -/
  | noHeader (size : Nat) (rest : Found)
  /-- `cli_scanembpe` fails before it scans. -/
  | embpeFails (size : Nat) (ret : Ret)
  /-- It writes the embedded file, or what the limits allow of it. -/
  | embpe (size need : Nat) (whole cut : Object) (unlinkFails : Bool)

end

section

/-- A document that a structured scanner is called for, and the name that it uses. -/
structure Conversion where
  document : Document
  object : Name
  given : Option Name
  deriving Repr, DecidableEq

/-- What a run does apart from returning. -/
inductive Event where
  | converts (conversion : Conversion)
  /-- a limit keeps something from being scanned -/
  | limit
  /-- `cli_bitset_init` fails -/
  | bitsetFails
  /-- the scan of an embedded executable returns `CL_VIRUS` -/
  | embeddedVirus
  /-- a text is matched as mail because of its container -/
  | mailText
  /-- `command` is freed, which is not set without `scan_filename` -/
  | freesUnset
  /-- texts of documents are nested deeper than the bound -/
  | unfinished
  deriving Repr, DecidableEq

/-- The engine and the options of a scan. -/
structure Engine extends Limits.Maxima where
  maxreclevel : Nat
  compiled : Bool
  /-- standard databases are loaded that are matched before unpacking -/
  sdb : Bool
  caches : Bool
  /-- some scan option is set -/
  options : Bool
  scanArchiveZip : Bool
  htmlSkipraw : Bool
  structured : Document → Bool
  /-- The text that a program makes of a file, if it succeeds and the text can be opened. -/
  convert : Converter → Name → Option (Option Object)
  /-- What the cache evicts when something is added. -/
  evicts : (Nat → Option Nat) → Nat → Bool

/-- A map on the stack of the context. -/
structure FMap where
  dontCache : Bool
  deriving Repr, DecidableEq

/-- The context of a scan, the cache of the engine, and `scan_filename`. -/
structure State where
  recursion : Nat
  fmap : List FMap
  containerType : FileType
  containerSize : Nat
  hookLsigMatches : Option Nat
  /-- how many bitsets were allocated -/
  bitsets : Nat
  scansize : Nat
  scannedfiles : Nat
  possiblyUnwanted : Bool
  cache : Nat → Option Nat
  scanFilename : Option Name
  trace : List Event

variable (engine : Engine)

def State.log (state : State) (event : Event) : State :=
  { state with trace := state.trace ++ [event] }

/-- `emax_reached` -/
def State.emaxReached (state : State) : State :=
  { state with fmap := state.fmap.map fun _ => ⟨true⟩ }

/-- The limits are asked, and it is noted if they are reached. -/
def withinLimits (state : State) (needed : Nat) : Bool × State :=
  if Limits.cliChecklimits engine.toMaxima ⟨state.scansize, state.scannedfiles⟩ needed 0 0 =
      .clean then
    (true, state)
  else
    (false, state.log .limit)

/-- The rest of `cli_updatelimits` behind the check. -/
def State.countFile (state : State) (needed : Nat) : State :=
  { state with
    scannedfiles := state.scannedfiles + 1
    scansize := min (state.scansize + needed) engine.maxscansize }

/-- `cache_check` -/
def cacheCheck (state : State) (digest : Nat) : Bool :=
  engine.caches ∧ ∃ level ∈ state.cache digest, level ≤ state.recursion

/-- `cacheset_add`, which lowers the level of what is there already. -/
def cachesetAdd
    (cache : Nat → Option Nat)
    (digest level : Nat) :
    Nat → Option Nat :=
  let added : Nat → Option Nat := fun other =>
    if other = digest then
      some (match cache digest with | some old => min old level | none => level)
    else cache other
  fun other => if engine.evicts added other then none else added other

/-- The level of `cache_add`, by the map that is on top of the stack. -/
def State.cacheLevel (state : State) : Nat :=
  if state.fmap.head?.any (·.dontCache) then state.recursion else 0

/-- `cache_add` -/
def cacheAdd (state : State) (digest : Nat) : State :=
  if ¬ engine.caches ∨ state.possiblyUnwanted ∧ (state.cacheLevel ≠ 0 ∨ state.recursion = 0) then
    state
  else
    { state with cache := cachesetAdd engine state.cache digest state.cacheLevel }

/-- `ctx->fmap++` and `fmap` -/
def State.push (state : State) : State := { state with fmap := ⟨false⟩ :: state.fmap }

/-- `funmap` and `ctx->fmap--` -/
def State.pop (state : State) : State := { state with fmap := state.fmap.tail }

/-- The object is left with the bitset from before. -/
def State.leave (state : State) (old : Option Nat) : State :=
  { state.pop with hookLsigMatches := old }

/-- `cli_bitset_init` -/
def State.newBitset (state : State) : State :=
  { state with hookLsigMatches := some state.bitsets, bitsets := state.bitsets + 1 }

def State.deeper (state : State) : State := { state with recursion := state.recursion + 1 }

def State.higher (state : State) : State := { state with recursion := state.recursion - 1 }

def State.withContainer (state : State) (type : FileType) (size : Nat) : State :=
  { state with containerType := type, containerSize := size }

/-- `cli_found_possibly_unwanted` where heuristics do not take precedence. -/
def State.foundPossiblyUnwanted (state : State) : State :=
  { state with possiblyUnwanted := true }.emaxReached

/-- The container of the last switch of `cli_scanraw`, where it sets one. -/
def State.withLast (state : State) : Option (FileType × Nat) → State
  | none => state
  | some (type, size) => state.withContainer type size

/-- `cli_checkfp` -/
def cliCheckfp (info : Info) : Ret :=
  if info.falsePositive then .clean else .virus

end

/-- A scan of something, from a state. -/
abbrev Scanner := State → Ret × State

section

variable (engine : Engine) (scanText : Object → Scanner)

/-- The programs are tried until one succeeds. -/
def tryConverters
    (given : Name)
    (converters : List Converter) :
    Option (Option Object) :=
  converters.findSome? fun converter => engine.convert converter given

/--
`cli_scanole2_structured`, `cli_scanpdf_structured` and `cli_scanps_structured`, with the
name that they use; `scanText` is `cli_scanfile` of the text.
-/
def scanStructured
    (document : Document)
    (object : Name)
    (given : Option Name)
    (state : State) :
    Ret × State :=
  if engine.maxreclevel ≠ 0 ∧ engine.maxreclevel ≤ state.recursion then
    (.emaxrec, state.log .limit)
  else
    let state := state.log (.converts ⟨document, object, given⟩)
    match given with
    | some given =>
      match tryConverters engine given document.converters with
      | some (some text) => scanText text state
      | some none => (.eopen, state)
      | none => (.clean, state)
    | none => (.clean, state.log .freesUnset)

/-- The structured scanner of a type, behind its other scanner. -/
def scanDocument
    (info : Info)
    (given : Option Name)
    (ret : Ret)
    (state : State) :
    Ret × State :=
  match info.type.document with
  | none => (ret, state)
  | some document =>
    if engine.structured document ∧ (ret = .clean ∨ document = .ps) then
      scanStructured engine scanText document info.name given state
    else
      (ret, state)

end

section

variable (engine : Engine)

/-- The returns of `cli_magic_scandesc` before it looks into the object, or its map is made. -/
def enterObject (info : Info) (state : State) : (Ret × State) ⊕ State :=
  if engine.maxreclevel ≠ 0 ∧ engine.maxreclevel < state.recursion then
    .inl (.clean, state.emaxReached.log .limit)
  else if info.fstatFails then
    .inl (.estat, state)
  else if info.size ≤ 5 then
    .inl (.clean, state)
  else if ¬ engine.compiled then
    .inl (.emalfdb, state)
  else
    match withinLimits engine state info.size with
    | (false, state) => .inl (.clean, state.emaxReached)
    | (true, state) =>
      let state := state.countFile engine info.size
      if info.fmapFails then
        .inl (.emem, state)
      else
        let state := state.push
        if cacheCheck engine state info.digest then
          .inl (.clean, state.pop)
        else
          .inr { state with hookLsigMatches := none }

/-- The object is matched without types: raw mode or the last level of recursion. -/
def scanBare
    (info : Info)
    (bare : Ret)
    (old : Option Nat)
    (state : State) :
    Ret × State :=
  let state :=
    if state.recursion = engine.maxreclevel then
      (if bare = .clean then state.emaxReached else state).log .limit
    else if bare = .clean then
      cacheAdd engine state info.digest
    else
      state
  (bare, state.leave old)

/-- A text in a mail is matched once more, as mail. -/
def matchMail (info : Info) (mail ret : Ret) (state : State) : Ret × State :=
  if info.type.isText ∧ ret ≠ .virus ∧ state.containerType = .mail then
    (mail, state.log .mailText)
  else
    (ret, state)

/-- The last returns of `cli_magic_scandesc`. -/
def finishObject (info : Info) (ret : Ret) (state : State) : Ret × State :=
  if ret ∈ [.eformat, .emaxrec, .emaxsize, .emaxfiles, .clean] then
    (.clean, cacheAdd engine state info.digest)
  else
    (ret, state)

/-- Whether embedded types are looked for in an object, behind its unpacking. -/
def typercg (info : Info) : Bool :=
  ¬ (info.type = .zip ∧ engine.scanArchiveZip ∧ 1048576 < info.size)

/-- A scan under a condition. -/
def scanIf (condition : Bool) (scanner : Scanner) (state : State) : Ret × State :=
  if condition then scanner state else (.clean, state)

/-- The object is matched before it is unpacked. -/
def matchesEarly (info : Info) : Bool := info.type ≠ .ignored ∧ engine.sdb

/-- The object is matched behind its unpacking; raw HTML may be skipped. -/
def matchesLate (info : Info) : Bool :=
  info.type ≠ .ignored ∧ (info.type ≠ .html ∨ ¬ engine.htmlSkipraw) ∧ ¬ engine.sdb

/--
`cli_magic_scandesc` from the second match on, after the object was unpacked with some
result: `late` is `cli_scanraw`, `later` the scanner of the second switch.
-/
def scanLate
    (info : Info)
    (mail : Ret)
    (late : Scanner)
    (later : Ret → Scanner)
    (old : Option Nat)
    (ret : Ret)
    (state : State) :
    Ret × State :=
  let (ret2, state) := scanIf (matchesLate engine info) late state
  if ret2 = .virus then
    (cliCheckfp info, state.leave old)
  else if ret2 = .euserabort then
    (.euserabort, state.leave old)
  else
    let (ret, state) := later ret state.deeper
    let (ret, state) := matchMail info mail ret state
    let ret := if ret = .virus then cliCheckfp info else ret
    finishObject engine info ret (state.higher.leave old)

variable (nameFor : Option Name → Name → Option Name) (scanText : Object → Scanner)

/--
The first switch of `cli_magic_scandesc`; `nameFor` is the name for structured scanners,
by `scan_filename` and the name of the object.
-/
def scanUnpacked
    (info : Info)
    (unpack : Ret → Scanner)
    (containerType : FileType)
    (containerSize : Nat)
    (ret : Ret)
    (state : State) :
    Ret × State :=
  let state := state.deeper
  let state := if info.type.isContainer then state.withContainer info.type info.size else state
  let (ret, state) := unpack ret state
  let (ret, state) :=
    scanDocument engine scanText info (nameFor state.scanFilename info.name) ret state
  (ret, state.higher.withContainer containerType containerSize)

/-- `cli_magic_scandesc`, with its scanners. -/
def scanObject
    (info : Info)
    (bare mail : Ret)
    (unpack : Ret → Scanner)
    (early late : Scanner)
    (later : Ret → Scanner)
    (state : State) :
    Ret × State :=
  let old := state.hookLsigMatches
  let containerType := state.containerType
  let containerSize := state.containerSize
  match enterObject engine info state with
  | .inl returned => returned
  | .inr state =>
    if ¬ engine.options ∨ state.recursion = engine.maxreclevel then
      scanBare engine info bare old state
    else if info.type = .error then
      (.eread, state.leave old)
    else if info.bitsetFails then
      (.emem, { state with hookLsigMatches := old }.log .bitsetFails)
    else
      let (ret, state) := scanIf (matchesEarly engine info) early state.newBitset
      if ret = .virus then
        (cliCheckfp info, state.leave old)
      else
        let (ret, state) :=
          scanUnpacked engine nameFor scanText info unpack containerType containerSize ret state
        if ret = .virus then
          (cliCheckfp info, state.leave old)
        else
          scanLate engine info mail late later old ret state

/-- `cli_scanembpe`, which scans what it wrote. -/
def cliScanembpe
    (need : Nat)
    (whole cut : Scanner)
    (unlinkFails : Bool)
    (state : State) :
    Ret × State :=
  let (within, state) := withinLimits engine state need
  let (ret, state) := if within then whole state.deeper else cut state.deeper
  if ret = .virus then
    (if unlinkFails then .eunlink else .virus, state.log .embeddedVirus)
  else
    (if unlinkFails then .eunlink else .clean, state.higher)

/-- `cli_scanraw` of an object with embedded types, with the loop over them. -/
def scanTyped
    (found : Ret → Scanner)
    (container : Option (FileType × Nat))
    (last : Ret → Scanner)
    (state : State) :
    Ret × State :=
  let containerType := state.containerType
  let containerSize := state.containerSize
  let (nret, state) := found .clean state.deeper
  let state := state.withContainer containerType containerSize
  if nret = .virus then
    (nret, state.higher)
  else
    let (nret, state) := last nret (state.withLast container)
    (nret, (state.withContainer containerType containerSize).higher)

/-- The limit at the start of `cli_scanraw`. -/
def belowLimit (scanner : Scanner) (state : State) : Ret × State :=
  if engine.maxreclevel ≠ 0 ∧ engine.maxreclevel ≤ state.recursion then
    (.emaxrec, state.log .limit)
  else
    scanner state

mutual

/-- `cli_magic_scandesc` -/
def magicScandesc : Object → Scanner
  | .mk info bare mail unpack raw later, state =>
    scanObject engine nameFor scanText info bare mail (fun ret state => runScript unpack ret state)
      (fun state => scanraw (raw false) state)
      (fun state => scanraw (raw (typercg engine info)) state)
      (fun ret state => runScript later ret state) state

/-- A scanner of a format, with what is returned if there is none. -/
def runScript : Script → Ret → Scanner
  | .absent, ret, state => (ret, state)
  | .done ret, _, state => (ret, state)
  | .checklimits need next, ret, state =>
    let (within, state) := withinLimits engine state need
    runScript (next within) ret state
  | .unwanted next, ret, state =>
    runScript next ret state.foundPossiblyUnwanted
  | .scan part next, ret, state =>
    let (found, state) := magicScandesc part state
    runScript (next found) ret state

/-- `cli_scanraw` -/
def scanraw : Raw → Scanner
  | .matched ret, state => belowLimit engine (fun state => (ret, state)) state
  | .typed found container last, state =>
    belowLimit engine (scanTyped (fun ret state => scanFound found ret state) container
        (fun ret state => runScript last ret state)) state

/-- The loop of `cli_scanraw` over embedded types. -/
def scanFound : Found → Ret → Scanner
  | .nil, nret, state => (nret, state)
  | .sfx type size script rest, nret, state =>
    let (nret, state) := runScript script nret (state.withContainer type size)
    if nret = .virus then (nret, state) else scanFound rest nret state
  | .noHeader size rest, nret, state => scanFound rest nret (state.withContainer .msexe size)
  | .embpeFails size ret, _, state => (ret, state.withContainer .msexe size)
  | .embpe size need whole cut unlinkFails, _, state =>
    cliScanembpe engine need (fun state => magicScandesc whole state)
      (fun state => magicScandesc cut state) unlinkFails (state.withContainer .msexe size)

end

end

variable (engine : Engine) (nameFor : Option Name → Name → Option Name)

/-- `cli_magic_scandesc`, with texts of documents nested at most as deep. -/
def scanWithin : Nat → Object → Scanner
  | 0, _, state => (.clean, state.log .unfinished)
  | depth + 1, object, state => magicScandesc engine nameFor (scanWithin depth) object state

/-- The name that structured scanners use is `scan_filename`. -/
def processName
    (scanFilename : Option Name)
    (_ : Name) :
    Option Name := scanFilename

/-- `cli_magic_scandesc` as the source has it. -/
def cliMagicScandesc
    (depth : Nat)
    (object : Object)
    (state : State) :
    Ret × State :=
  scanWithin engine processName depth object state

/-- What calls leave behind: `scan_filename` and the cache. -/
structure Process where
  scanFilename : Option Name
  cache : Nat → Option Nat

/-- The context that `cl_scandesc` sets up. -/
def Process.context (process : Process) : State where
  recursion := 0
  fmap := []
  containerType := .any
  containerSize := 0
  hookLsigMatches := some 0
  bitsets := 1
  scansize := 0
  scannedfiles := 0
  possiblyUnwanted := false
  cache := process.cache
  scanFilename := process.scanFilename
  trace := []

/-- The verdict of a call and what happened in it. -/
structure Report where
  ret : Ret
  events : List Event
  deriving Repr, DecidableEq

def Object.info : Object → Info
  | .mk info _ _ _ _ _ => info

/-- The calls of the library: `cl_scanfile` of a file or of a missing one, and `cl_scandesc`. -/
inductive Call where
  | scanfile (file : Object)
  | missing (name : Name)
  | scandesc (file : Object)

variable (depth : Nat)

/-- `cl_scandesc` -/
def scandesc (object : Object) (process : Process) : Report × Process :=
  let (rc, state) := scanWithin engine nameFor depth object process.context
  let rc := if rc = .clean ∧ state.possiblyUnwanted then .virus else rc
  (⟨rc, state.trace⟩, ⟨state.scanFilename, state.cache⟩)

/-- `cl_scanfile` sets `scan_filename` if the file is opened. -/
def runCall (call : Call) (process : Process) : Report × Process :=
  match call with
  | .scanfile file =>
    scandesc engine nameFor depth file { process with scanFilename := some file.info.name }
  | .missing _ => (⟨.eopen, []⟩, process)
  | .scandesc file => scandesc engine nameFor depth file process

/-- The reports of calls, one after the other. -/
def runCalls : List Call → Process → List Report
  | [], _ => []
  | call :: calls, process =>
    let (report, process) := runCall engine nameFor depth call process
    report :: runCalls calls process

end LibClamav.Scan
