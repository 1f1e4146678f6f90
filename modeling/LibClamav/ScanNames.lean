import LibClamav.ScanRestores

namespace LibClamav.Scan

open List

/-!
# Names of converted documents

The structured scanners convert the file that `scan_filename` names.  This is the file of
the last `cl_scanfile`, whatever is scanned now, so the right file is converted exactly if
each document that is reached has that name.
-/

variable {info : Info} {state : State} {scanner other : Scanner}

section

variable {engine : Engine} {first second : Option Name → Name → Option Name}
variable {scanFilename : Option Name} {scanText scanText' : Object → Scanner}

/-- Fewer events are named as well. -/
theorem Named.mono
    {before after : List Event}
    (named : Named second scanFilename after)
    (grows : before <+: after) :
    Named second scanFilename before :=
  fun conversion isConversion => named conversion (grows.subset isConversion)

/-- The second of two outcomes is the first one if that names its conversions so. -/
def Follows
    (naming : Option Name → Name → Option Name)
    (before : State)
    (outcome other : Ret × State) :
    Prop :=
  before.trace <+: outcome.2.trace ∧ outcome.2.scanFilename = before.scanFilename ∧
    (Named naming before.scanFilename outcome.2.trace → other = outcome)

def Coupled
    (naming : Option Name → Name → Option Name)
    (scanner other : Scanner) :
    Prop :=
  ∀ state, Follows naming state (scanner state) (other state)

theorem Follows.refl
    (state : State)
    (ret : Ret) :
    Follows second state (ret, state) (ret, state) :=
  ⟨prefix_rfl, rfl, fun _ => rfl⟩

theorem Grows.trace_le
    {before after : State}
    (grows : Grows first before after) :
    before.trace <+: after.trace := by
  obtain ⟨events, isTrace, _⟩ := grows.events
  exact ⟨events, isTrace.symm⟩

/-- A step and a scan that follows another. -/
theorem Grows.andThen
    {middle : State}
    {outcome there : Ret × State}
    (grows : Grows first state middle)
    (follows : Follows second middle outcome there) :
    Follows second state outcome there := by
  obtain ⟨growsLater, isName, isSame⟩ := follows
  exact ⟨grows.trace_le.trans growsLater, isName.trans grows.name,
    fun named => isSame (grows.name ▸ named)⟩

/-- Two scans, one after the other. -/
theorem Follows.bind
    {outcome there rest : Ret × State}
    {next : Ret × State → Ret × State}
    (follows : Follows second state outcome there)
    (later : Follows second outcome.2 rest (next outcome)) :
    Follows second state rest (next there) := by
  obtain ⟨grows, isName, isSame⟩ := follows
  obtain ⟨growsLater, isNameLater, isSameLater⟩ := later
  refine ⟨grows.trans growsLater, isNameLater.trans isName, fun named => ?_⟩
  rw [isSame (named.mono growsLater)]
  exact isSameLater (isName ▸ named)

/-- Where the same name is used, a structured scanner logs it and follows with its text. -/
theorem scanStructured_follows_logged
    (followsText : ∀ text, Coupled second (scanText text) (scanText' text))
    (document : Document)
    (object : Name)
    (given : Option Name)
    (notDeep : ¬ (engine.maxreclevel ≠ 0 ∧ engine.maxreclevel ≤ state.recursion)) :
    Follows second (state.log (.converts ⟨document, object, given⟩))
      (scanStructured engine scanText document object given state)
      (scanStructured engine scanText' document object given state) := by
  rw [scanStructured, scanStructured, if_neg notDeep, if_neg notDeep]
  dsimp only
  split
  · split
    · exact followsText _ _
    · exact .refl _ _
    · exact .refl _ _
  · exact ⟨prefix_append _ _, rfl, fun _ => rfl⟩

theorem scanStructured_follows
    (followsText : ∀ text, Coupled second (scanText text) (scanText' text))
    (document : Document)
    (object : Name)
    (state : State) :
    Follows second state
      (scanStructured engine scanText document object (first state.scanFilename object) state)
      (scanStructured engine scanText' document object (second state.scanFilename object)
        state) := by
  by_cases isDeep : engine.maxreclevel ≠ 0 ∧ engine.maxreclevel ≤ state.recursion
  · rw [scanStructured, scanStructured, if_pos isDeep, if_pos isDeep]
    exact (@returns_limit second state).toGrows.andThen (.refl _ _)
  have follows := @scanStructured_follows_logged state engine second scanText scanText' followsText
    document object (first state.scanFilename object) isDeep
  refine ⟨(prefix_append _ _).trans follows.1, follows.2.1, fun named => ?_⟩
  have isSame : second state.scanFilename object = first state.scanFilename object :=
    named _ (follows.1.subset (mem_append_right _ mem_cons_self))
  rw [isSame]
  exact follows.2.2 named

/-- A document that is converted follows. -/
theorem scanDocument_follows
    (followsText : ∀ text, Coupled second (scanText text) (scanText' text))
    (info : Info)
    (ret : Ret)
    (state : State) :
    Follows second state
      (scanDocument engine scanText info (first state.scanFilename info.name) ret state)
      (scanDocument engine scanText' info (second state.scanFilename info.name) ret state) := by
  rw [scanDocument, scanDocument]
  split
  · exact .refl state ret
  split
  · exact scanStructured_follows followsText _ info.name state
  · exact .refl state ret

theorem scanUnpacked_follows
    {unpack unpack' : Ret → Scanner}
    (followsText : ∀ text, Coupled second (scanText text) (scanText' text))
    (follows : ∀ ret, Coupled second (unpack ret) (unpack' ret))
    (type : FileType)
    (size : Nat)
    (ret : Ret) :
    Coupled second (scanUnpacked engine first scanText info unpack type size ret)
      (scanUnpacked engine second scanText' info unpack' type size ret) := by
  intro state
  rw [scanUnpacked, scanUnpacked]
  generalize isEntered : (if info.type.isContainer = true then
    state.deeper.withContainer info.type info.size else state.deeper) = entered
  have unpacks : Follows second state (unpack ret entered) (unpack' ret entered) := by
    rw [← isEntered]
    split
    · exact follows ret (state.deeper.withContainer info.type info.size)
    · exact follows ret state.deeper
  generalize unpack' ret entered = there at unpacks ⊢
  apply unpacks.bind
  have converts := @scanDocument_follows engine first second scanText scanText' followsText info
    (unpack ret entered).1 (unpack ret entered).2
  dsimp only
  generalize scanDocument engine scanText' info (second _ info.name) (unpack ret entered).1
    (unpack ret entered).2 = there at converts ⊢
  apply converts.bind
  exact ⟨prefix_rfl, rfl, fun _ => rfl⟩

theorem scanIf_follows
    (condition : Bool)
    (follows : Coupled second scanner other) :
    Coupled second (scanIf condition scanner) (scanIf condition other) := by
  cases condition with
  | false => exact fun state => .refl state _
  | true => exact follows

theorem scanLate_follows
    {late late' : Scanner}
    {later later' : Ret → Scanner}
    (followsLate : Coupled second late late')
    (followsLater : ∀ ret, Coupled second (later ret) (later' ret))
    (mail : Ret)
    (old : Option Nat)
    (ret : Ret) :
    Coupled second (scanLate engine info mail late later old ret)
      (scanLate engine info mail late' later' old ret) := by
  intro state
  have matches' := scanIf_follows (matchesLate engine info) followsLate state
  rw [scanLate, scanLate]
  generalize scanIf (matchesLate engine info) late' state = there at matches' ⊢
  apply matches'.bind
  generalize scanIf (matchesLate engine info) late state = matched
  obtain ⟨ret2, matched⟩ := matched
  dsimp only
  split
  · exact ⟨prefix_rfl, rfl, fun _ => rfl⟩
  split
  · exact ⟨prefix_rfl, rfl, fun _ => rfl⟩
  have scans : Follows second matched _ _ := followsLater ret matched.deeper
  generalize later' ret matched.deeper = there at scans ⊢
  apply scans.bind
  have finishes (ret : Ret) (state : State) : Follows second state
      (finishObject engine info ret (state.higher.leave old))
      (finishObject engine info ret (state.higher.leave old)) :=
    (@finishObject_returns engine second info ret (state.higher.leave old)).toGrows.andThen
      (.refl _ _)
  exact (@matchMail_returns second info mail _ _).toGrows.andThen (finishes _ _)

/-- An object follows if its parts do. -/
theorem scanObject_follows
    {unpack unpack' later later' : Ret → Scanner}
    {early early' late late' : Scanner}
    (bare mail : Ret)
    (followsText : ∀ text, Coupled second (scanText text) (scanText' text))
    (followsUnpack : ∀ ret, Coupled second (unpack ret) (unpack' ret))
    (followsEarly : Coupled second early early')
    (followsLate : Coupled second late late')
    (followsLater : ∀ ret, Coupled second (later ret) (later' ret)) :
    Coupled second (scanObject engine first scanText info bare mail unpack early late later)
      (scanObject engine second scanText' info bare mail unpack' early' late' later') := by
  intro state
  have enters := @enterObject_returns engine first info state
  rw [scanObject, scanObject]
  generalize enterObject engine info state = entered at *
  cases entered with
  | inl returned => exact enters.toGrows.andThen (.refl _ _)
  | inr entered =>
    obtain ⟨middle, isMiddle, _, rfl⟩ := enters
    refine isMiddle.toGrows.andThen ?_
    dsimp only
    split
    · obtain ⟨matched, isMatched, isLeft⟩ :=
        @scanBare_returns engine first info bare state.hookLsigMatches (middle.inside none)
      refine ⟨?_, ?_, fun _ => rfl⟩
      · rw [isLeft]
        exact isMatched.toGrows.trace_le
      · rw [isLeft]
        exact isMatched.name
    split
    · exact ⟨prefix_rfl, rfl, fun _ => rfl⟩
    split
    · exact ⟨prefix_append _ _, rfl, fun _ => rfl⟩
    have matches' : Follows second middle _ _ :=
      scanIf_follows (matchesEarly engine info) followsEarly (middle.inside none).newBitset
    generalize scanIf (matchesEarly engine info) early' (middle.inside none).newBitset = there
      at matches' ⊢
    apply matches'.bind
    generalize scanIf (matchesEarly engine info) early (middle.inside none).newBitset = matched
    obtain ⟨ret, matched⟩ := matched
    dsimp only
    split
    · exact ⟨prefix_rfl, rfl, fun _ => rfl⟩
    have unpacks := @scanUnpacked_follows info engine first second scanText scanText' unpack
      unpack' followsText followsUnpack state.containerType state.containerSize ret matched
    generalize scanUnpacked engine second scanText' info unpack' state.containerType
      state.containerSize ret matched = there at unpacks ⊢
    apply unpacks.bind
    generalize scanUnpacked engine first scanText info unpack state.containerType
      state.containerSize ret matched = unpacked
    obtain ⟨ret, unpacked⟩ := unpacked
    dsimp only
    split
    · exact ⟨prefix_rfl, rfl, fun _ => rfl⟩
    · exact scanLate_follows followsLate followsLater mail state.hookLsigMatches ret unpacked

theorem cliScanembpe_follows
    {whole whole' cut cut' : Scanner}
    (need : Nat)
    (followsWhole : Coupled second whole whole')
    (followsCut : Coupled second cut cut')
    (unlinkFails : Bool) :
    Coupled second (cliScanembpe engine need whole cut unlinkFails)
      (cliScanembpe engine need whole' cut' unlinkFails) := by
  intro state
  rw [cliScanembpe, cliScanembpe]
  refine (@returns_withinLimits engine second state need).toGrows.andThen ?_
  generalize withinLimits engine state need = asked
  obtain ⟨within, asked⟩ := asked
  dsimp only
  have scans : Follows second asked (if within = true then whole asked.deeper else cut asked.deeper)
      (if within = true then whole' asked.deeper else cut' asked.deeper) := by
    split
    · exact followsWhole asked.deeper
    · exact followsCut asked.deeper
  generalize (if within = true then whole' asked.deeper else cut' asked.deeper) = there
    at scans ⊢
  apply scans.bind
  generalize (if within = true then whole asked.deeper else cut asked.deeper) = scanned
  obtain ⟨ret, scanned⟩ := scanned
  dsimp only
  split
  · exact ⟨prefix_append _ _, rfl, fun _ => rfl⟩
  · exact ⟨prefix_rfl, rfl, fun _ => rfl⟩

theorem scanTyped_follows
    {found found' last last' : Ret → Scanner}
    (container : Option (FileType × Nat))
    (followsFound : ∀ ret, Coupled second (found ret) (found' ret))
    (followsLast : ∀ ret, Coupled second (last ret) (last' ret)) :
    Coupled second (scanTyped found container last) (scanTyped found' container last') := by
  intro state
  rw [scanTyped, scanTyped]
  have finds : Follows second state _ _ := followsFound .clean state.deeper
  dsimp only
  generalize found' .clean state.deeper = there at finds ⊢
  apply finds.bind
  generalize found .clean state.deeper = embedded
  obtain ⟨nret, embedded⟩ := embedded
  dsimp only
  split
  · exact ⟨prefix_rfl, rfl, fun _ => rfl⟩
  generalize isEntered :
    (embedded.withContainer state.containerType state.containerSize).withLast container = entered
  have scans : Follows second embedded (last nret entered) (last' nret entered) := by
    have scans := followsLast nret entered
    rw [← isEntered] at scans ⊢
    cases container with
    | none | some container => exact scans
  generalize last' nret entered = there at scans ⊢
  apply scans.bind
  exact ⟨prefix_rfl, rfl, fun _ => rfl⟩

theorem belowLimit_follows
    (follows : Coupled second scanner other) :
    Coupled second (belowLimit engine scanner) (belowLimit engine other) := by
  intro state
  rw [belowLimit, belowLimit]
  split
  · exact ⟨prefix_append _ _, rfl, fun _ => rfl⟩
  · exact follows state

end

section

variable {engine : Engine} {first second : Option Name → Name → Option Name}
variable {scanText scanText' : Object → Scanner}

mutual

/-- Two runs of `cli_magic_scandesc` with the same names do the same. -/
theorem magicScandesc_follows
    (followsText : ∀ text, Coupled second (scanText text) (scanText' text)) :
    ∀ (object : Object),
      Coupled second (magicScandesc engine first scanText object)
        (magicScandesc engine second scanText' object)
  | .mk info bare mail unpack raw later => fun state => by
    rw [magicScandesc, magicScandesc]
    exact scanObject_follows bare mail followsText (runScript_follows followsText unpack)
      (scanraw_follows followsText (raw false))
      (scanraw_follows followsText (raw (typercg engine info)))
      (runScript_follows followsText later) state

/-- Every unpacker follows. -/
theorem runScript_follows
    (followsText : ∀ text, Coupled second (scanText text) (scanText' text)) :
    ∀ (script : Script) (ret : Ret),
      Coupled second (runScript engine first scanText script ret)
        (runScript engine second scanText' script ret)
  | .absent, ret => fun state => by
    rw [runScript, runScript]
    exact .refl state ret
  | .done ret, _ => fun state => by
    rw [runScript, runScript]
    exact .refl state ret
  | .checklimits need next, ret => fun state => by
    rw [runScript, runScript]
    exact (@returns_withinLimits engine second state need).toGrows.andThen
      (runScript_follows followsText (next _) ret _)
  | .unwanted next, ret => fun state => by
    rw [runScript, runScript]
    exact runScript_follows followsText next ret state.foundPossiblyUnwanted
  | .scan part next, ret => fun state => by
    rw [runScript, runScript]
    have scans := magicScandesc_follows followsText part state
    generalize magicScandesc engine second scanText' part state = there at scans ⊢
    apply scans.bind
    exact runScript_follows followsText (next _) ret _

/-- So does the raw scan. -/
theorem scanraw_follows
    (followsText : ∀ text, Coupled second (scanText text) (scanText' text)) :
    ∀ (raw : Raw),
      Coupled second (scanraw engine first scanText raw) (scanraw engine second scanText' raw)
  | .matched ret => fun state => by
    rw [scanraw, scanraw]
    exact belowLimit_follows (fun state => .refl state ret) state
  | .typed found container last => fun state => by
    rw [scanraw, scanraw]
    exact belowLimit_follows (scanTyped_follows container (scanFound_follows followsText found)
      (runScript_follows followsText last)) state

theorem scanFound_follows
    (followsText : ∀ text, Coupled second (scanText text) (scanText' text)) :
    ∀ (found : Found) (nret : Ret),
      Coupled second (scanFound engine first scanText found nret)
        (scanFound engine second scanText' found nret)
  | .nil, nret => fun state => by
    rw [scanFound, scanFound]
    exact .refl state nret
  | .sfx type size script rest, nret => fun state => by
    rw [scanFound, scanFound]
    have scans : Follows second state _ _ :=
      runScript_follows followsText script nret (state.withContainer type size)
    generalize runScript engine second scanText' script nret (state.withContainer type size) =
      there at scans ⊢
    apply scans.bind
    generalize runScript engine first scanText script nret (state.withContainer type size) =
      scanned
    obtain ⟨nret, scanned⟩ := scanned
    dsimp only
    split
    · exact .refl scanned nret
    · exact scanFound_follows followsText rest nret scanned
  | .noHeader size rest, nret => fun state => by
    rw [scanFound, scanFound]
    exact scanFound_follows followsText rest nret (state.withContainer .msexe size)
  | .embpeFails size ret, _ => fun state => by
    rw [scanFound, scanFound]
    exact .refl (state.withContainer .msexe size) ret
  | .embpe size need whole cut unlinkFails, _ => fun state => by
    rw [scanFound, scanFound]
    exact cliScanembpe_follows need (magicScandesc_follows followsText whole)
      (magicScandesc_follows followsText cut) unlinkFails (state.withContainer .msexe size)

end

/-- The same with texts of documents, at any depth. -/
theorem scanWithin_follows
    (depth : Nat) :
    ∀ object,
      Coupled second (scanWithin engine first depth object)
        (scanWithin engine second depth object) := by
  induction depth with
  | zero => exact fun object state => ⟨prefix_append _ _, rfl, fun _ => rfl⟩
  | succ depth inductionHypothesis =>
    exact fun object state => magicScandesc_follows inductionHypothesis object state

end

/-- The name of the object itself. -/
def ownName (_ : Option Name) (object : Name) : Option Name := some object

/-- The conversions in a report. -/
def Report.conversions (report : Report) : List Conversion := report.events.filterMap fun
    | .converts conversion => some conversion
    | _ => none

/-- What `scan_filename` is in a call, by what it was before. -/
def Call.names (call : Call) (scanFilename : Option Name) : Option Name :=
  match call with
  | .scanfile file => some file.info.name
  | _ => scanFilename

/-- The documents that calls reach if each is converted by its own name, with `scan_filename`. -/
def reached
    (engine : Engine)
    (depth : Nat) :
    List Call → Process → List (Option Name × Name)
  | [], _ => []
  | call :: calls, process =>
    let (report, after) := runCall engine ownName depth call process
    report.conversions.map (fun conversion =>
      (call.names process.scanFilename, conversion.object)) ++ reached engine depth calls after

variable {engine : Engine} {first second : Option Name → Name → Option Name} {depth : Nat}
variable (call : Call) (process : Process)

theorem mem_conversions
    {report : Report}
    {conversion : Conversion} :
    conversion ∈ report.conversions ↔ .converts conversion ∈ report.events := by
  rw [Report.conversions, mem_filterMap]
  constructor
  · rintro ⟨event, isEvent, isConversion⟩
    cases event with
    | converts _ =>
      cases isConversion
      exact isEvent
    | limit | bitsetFails | embeddedVirus | mailText | freesUnset | unfinished =>
      cases isConversion
  · exact fun isEvent => ⟨_, isEvent, rfl⟩

/-- A call names its object. -/
theorem runCall_named :
    Named first (call.names process.scanFilename)
      (runCall engine first depth call process).1.events := by
  have ofScan (object : Object) (process : Process) :
      Named first process.scanFilename (scandesc engine first depth object process).1.events := by
    obtain ⟨events, isTrace, _, _, named⟩ :=
      (@scanWithin_restores engine first depth object process.context).events
    have isEvents : (scandesc engine first depth object process).1.events = events := isTrace
    rw [isEvents]
    exact named
  cases call with
  | scanfile file => exact ofScan file _
  | missing name => exact fun _ isEvent => absurd isEvent not_mem_nil
  | scandesc file => exact ofScan file process

/-- Calls whose names agree are the same. -/
theorem runCall_agrees
    (named : Named second (call.names process.scanFilename)
      (runCall engine first depth call process).1.events) :
    runCall engine second depth call process = runCall engine first depth call process := by
  have ofScan (object : Object) (process : Process)
      (named : Named second process.scanFilename
        (scandesc engine first depth object process).1.events) :
      scandesc engine second depth object process = scandesc engine first depth object process := by
    have isSame := (@scanWithin_follows engine first second depth object process.context).2.2 named
    rw [scandesc, scandesc, isSame]
  cases call with
  | scanfile file => exact ofScan file _ named
  | missing name => rfl
  | scandesc file => exact ofScan file process named

/-- The text of a document, which may be a document itself. -/
def textOf (type : FileType) (ret : Ret) : Object :=
  .mk { sampleInfo type false with name := [0x74] } ret .clean .absent (fun _ => .matched ret)
    .absent

/--
An engine that converts documents.  The text of the second file is sensitive, and the one
of the third begins like PostScript.
-/
def convertingEngine : Engine :=
  { plainEngine with
    structured := fun _ => true
    convert := fun converter name =>
      if converter = .pdftotext then
        some (some (textOf (if name = [0x63] then .ps else .textAscii)
          (if name = [0x62] then .virus else .clean)))
      else
        none }

/-- A document of some name. -/
def document (name : Name) : Object :=
  .mk { sampleInfo .pdf false with name := name } .clean .clean .absent
    (fun _ => .matched .clean) .absent

/-- An archive with a document. -/
def archiveOf (name part : Name) : Object :=
  .mk { sampleInfo .zip false with name := name } .clean .clean
    (.scan (document part) .done) (fun _ => .matched .clean) .absent

end LibClamav.Scan
