import LibClamav.ScanSource

namespace LibClamav.Scan

open List

/-!
# What a scan leaves in the context

`cli_magic_scandesc` gives back the container and the bitset that it was called with.  The
level of recursion grows by one with each embedded executable that is infected, and the
stack of maps with each bitset that cannot be allocated.
-/

section

/-- The conversions among events use the names that they should by a naming. -/
def Named
    (nameFor : Option Name → Name → Option Name)
    (scanFilename : Option Name)
    (events : List Event) :
    Prop :=
  ∀ conversion, .converts conversion ∈ events →
    nameFor scanFilename conversion.object = conversion.given

/-- Between two states of a run only two events leave something behind. -/
structure Grows (nameFor : Option Name → Name → Option Name) (before after : State) : Prop where
  events : ∃ events, after.trace = before.trace ++ events ∧
    after.recursion = before.recursion + events.count .embeddedVirus ∧
    after.fmap.length = before.fmap.length + events.count .bitsetFails ∧
    Named nameFor before.scanFilename events
  bitset : after.hookLsigMatches = before.hookLsigMatches
  name : after.scanFilename = before.scanFilename

/-- The container is the same as well. -/
structure Returns (nameFor : Option Name → Name → Option Name) (before after : State) : Prop
    extends Grows nameFor before after where
  type : after.containerType = before.containerType
  size : after.containerSize = before.containerSize

variable
    {engine : Engine} {nameFor : Option Name → Name → Option Name} {before middle after : State}
  (state : State) (need : Nat)

theorem Grows.refl : Grows nameFor state state := ⟨⟨[], by simp [Named]⟩, rfl, rfl⟩

/-- Two steps that only add to the trace. -/
theorem Grows.trans
    (first : Grows nameFor before middle)
    (later : Grows nameFor middle after) :
    Grows nameFor before after := by
  obtain ⟨events, isTrace, isRecursion, isFmap, named⟩ := first.events
  obtain ⟨events', isTrace', isRecursion', isFmap', named'⟩ := later.events
  refine ⟨⟨events ++ events', ?_, ?_, ?_, ?_⟩, later.bitset.trans first.bitset,
    later.name.trans first.name⟩
  · rw [isTrace', isTrace, append_assoc]
  · rw [isRecursion', isRecursion, count_append, add_assoc]
  · rw [isFmap', isFmap, count_append, add_assoc]
  intro conversion isConversion
  rcases mem_append.mp isConversion with isFirst | isLater
  · exact named conversion isFirst
  · exact first.name ▸ named' conversion isLater

theorem Returns.refl : Returns nameFor state state := ⟨Grows.refl state, rfl, rfl⟩

/-- Two steps that leave the context as it was. -/
theorem Returns.trans
    (first : Returns nameFor before middle)
    (later : Returns nameFor middle after) :
    Returns nameFor before after :=
  ⟨first.toGrows.trans later.toGrows, later.type.trans first.type, later.size.trans first.size⟩

theorem Returns.of_eq
    (isTrace : after.trace = before.trace)
    (isRecursion : after.recursion = before.recursion)
    (isFmap : after.fmap.length = before.fmap.length)
    (isBitset : after.hookLsigMatches = before.hookLsigMatches)
    (isType : after.containerType = before.containerType)
    (isSize : after.containerSize = before.containerSize)
    (isName : after.scanFilename = before.scanFilename) :
    Returns nameFor before after :=
  ⟨⟨⟨[], by simp [isTrace], by simp [isRecursion], by simp [isFmap], by simp [Named]⟩, isBitset,
    isName⟩, isType, isSize⟩

theorem returns_emaxReached : Returns nameFor state state.emaxReached :=
  .of_eq rfl rfl (length_map _) rfl rfl rfl rfl

theorem returns_foundPossiblyUnwanted : Returns nameFor state state.foundPossiblyUnwanted :=
  .of_eq rfl rfl (length_map _) rfl rfl rfl rfl

/-- An event that is no failure leaves the context. -/
theorem returns_log
    {event : Event}
    (notEmbedded : event ≠ .embeddedVirus)
    (notBitset : event ≠ .bitsetFails)
    (named : Named nameFor state.scanFilename [event]) :
    Returns nameFor state (state.log event) :=
  ⟨⟨⟨[event], rfl, by simp [State.log, notEmbedded], by simp [State.log, notBitset], named⟩, rfl,
    rfl⟩, rfl, rfl⟩

theorem returns_limit : Returns nameFor state (state.log .limit) :=
  returns_log state Event.noConfusion Event.noConfusion (by simp [Named])

theorem returns_withinLimits : Returns nameFor state (withinLimits engine state need).2 := by
  rw [withinLimits]
  split
  · exact .refl state
  · exact returns_limit state

theorem returns_countFile : Returns nameFor state (state.countFile engine need) :=
  .of_eq rfl rfl rfl rfl rfl rfl rfl

theorem returns_cacheAdd (digest : Nat) : Returns nameFor state (cacheAdd engine state digest) := by
  rw [cacheAdd]
  split
  · exact .refl state
  · exact .of_eq rfl rfl rfl rfl rfl rfl rfl

theorem grows_withContainer
    (type : FileType)
    (size : Nat) :
    Grows nameFor state (state.withContainer type size) :=
  ⟨(Grows.refl state).events, rfl, rfl⟩

/-- A level below is left again. -/
theorem Grows.higher
    (inside : Grows nameFor before.deeper after) :
    Grows nameFor before after.higher := by
  obtain ⟨events, isTrace, isRecursion, isFmap, named⟩ := inside.events
  refine ⟨⟨events, isTrace, ?_, isFmap, named⟩, inside.bitset, inside.name⟩
  change after.recursion - 1 = _
  rw [isRecursion]
  change before.recursion + 1 + _ - 1 = _
  omega

/-- The bitset of an object is replaced while its map is on the stack. -/
def State.inside (state : State) (bitset : Option Nat) : State :=
  { state.push with hookLsigMatches := bitset }

/-- The map of an object is taken off again. -/
theorem Returns.leave
    {bitset : Option Nat}
    (inside : Returns nameFor (before.inside bitset) after) :
    Returns nameFor before (after.leave before.hookLsigMatches) := by
  obtain ⟨events, isTrace, isRecursion, isFmap, named⟩ := inside.events
  refine ⟨⟨⟨events, isTrace, isRecursion, ?_, named⟩, rfl, inside.name⟩, inside.type, inside.size⟩
  change after.fmap.tail.length = _
  rw [length_tail, isFmap]
  change before.fmap.length + 1 + _ - 1 = _
  omega

end

section

variable {engine : Engine} {nameFor : Option Name → Name → Option Name} {info : Info}
  {scanText : Object → Scanner} {unpack : Ret → Scanner} {scanner late : Scanner}
  (ret bare mail : Ret)

/-- The scan gives back the context, apart from the two events. -/
def Scanner.Restores
    (nameFor : Option Name → Name → Option Name)
    (scanner : Scanner) :
    Prop :=
  ∀ state, Returns nameFor state (scanner state).2

/-- `cli_magic_scandesc` returns before it looks into the object, or enters it. -/
theorem enterObject_returns
    (info : Info)
    (state : State) :
    Sum.elim (fun returned => Returns nameFor state returned.2)
      (fun entered => ∃ middle, Returns nameFor state middle ∧
        middle.hookLsigMatches = state.hookLsigMatches ∧ entered = middle.inside none)
      (enterObject engine info state) := by
  rw [enterObject]
  split
  · exact (returns_emaxReached state).trans (returns_limit _)
  split
  · exact .refl state
  split
  · exact .refl state
  split
  · exact .refl state
  have asks := @returns_withinLimits engine nameFor state info.size
  generalize withinLimits engine state info.size = asked at asks
  obtain ⟨within, asked⟩ := asked
  cases within with
  | false => exact asks.trans (returns_emaxReached _)
  | true =>
    have counts := asks.trans (@returns_countFile engine nameFor asked info.size)
    dsimp only
    split
    · exact counts
    split
    · exact counts
    · exact ⟨_, counts, counts.bitset, rfl⟩

/-- The scan without an engine leaves the context. -/
theorem scanBare_returns
    (old : Option Nat)
    (state : State) :
    ∃ middle, Returns nameFor state middle ∧
      (scanBare engine info bare old state).2 = middle.leave old := by
  refine ⟨_, ?_, rfl⟩
  split
  · split
    · exact (returns_emaxReached state).trans (returns_limit _)
    · exact returns_limit state
  split
  · exact returns_cacheAdd state info.digest
  · exact .refl state

theorem matchMail_returns
    (ret : Ret)
    (state : State) :
    Returns nameFor state (matchMail info mail ret state).2 := by
  rw [matchMail]
  split
  · exact returns_log state Event.noConfusion Event.noConfusion (by simp [Named])
  · exact .refl state

/-- So does the end of a scan. -/
theorem finishObject_returns
    (state : State) :
    Returns nameFor state (finishObject engine info ret state).2 := by
  rw [finishObject]
  split
  · exact returns_cacheAdd state info.digest
  · exact .refl state

/-- A structured scanner logs the name that it uses, and scans the text of the document. -/
theorem scanStructured_returns
    (restoresText : ∀ text, (scanText text).Restores nameFor)
    (document : Document)
    (object : Name)
    (state : State) :
    Returns nameFor state
      (scanStructured engine scanText document object (nameFor state.scanFilename object)
        state).2 := by
  rw [scanStructured]
  split
  · exact returns_limit state
  have named : Named nameFor state.scanFilename
      [.converts ⟨document, object, nameFor state.scanFilename object⟩] := by
    intro conversion isConversion
    cases mem_singleton.mp isConversion
    rfl
  have logs : Returns nameFor state
      (state.log (.converts ⟨document, object, nameFor state.scanFilename object⟩)) :=
    returns_log state Event.noConfusion Event.noConfusion named
  refine logs.trans ?_
  dsimp only
  split
  · split
    · exact restoresText _ _
    · exact .refl _
    · exact .refl _
  · exact returns_log _ Event.noConfusion Event.noConfusion (by simp [Named])

/-- So does a document that is converted. -/
theorem scanDocument_returns
    (restoresText : ∀ text, (scanText text).Restores nameFor)
    (state : State) :
    Returns nameFor state
      (scanDocument engine scanText info (nameFor state.scanFilename info.name) ret state).2 := by
  rw [scanDocument]
  split
  · exact .refl state
  split
  · exact scanStructured_returns restoresText _ info.name state
  · exact .refl state

theorem scanUnpacked_grows
    (restoresText : ∀ text, (scanText text).Restores nameFor)
    (restores : ∀ ret, (unpack ret).Restores nameFor)
    (type : FileType)
    (size : Nat)
    (ret : Ret)
    (state : State) :
    Grows nameFor state
      (scanUnpacked engine nameFor scanText info unpack type size ret state).2 := by
  rw [scanUnpacked]
  generalize isEntered : (if info.type.isContainer = true then
    state.deeper.withContainer info.type info.size else state.deeper) = entered
  have enters : Grows nameFor state.deeper entered := by
    rw [← isEntered]
    split
    · exact grows_withContainer state.deeper info.type info.size
    · exact .refl state.deeper
  have unpacks := restores ret entered
  generalize unpack ret entered = unpacked at unpacks
  obtain ⟨ret, unpacked⟩ := unpacked
  have converts := @scanDocument_returns engine nameFor info scanText ret restoresText unpacked
  exact (enters.trans (unpacks.toGrows.trans converts.toGrows)).higher.trans
    (grows_withContainer _ type size)

/-- So does an object that is unpacked. -/
theorem scanUnpacked_returns
    (restoresText : ∀ text, (scanText text).Restores nameFor)
    (restores : ∀ ret, (unpack ret).Restores nameFor)
    (ret : Ret)
    (state : State) :
    Returns nameFor state
      (scanUnpacked engine nameFor scanText info unpack state.containerType state.containerSize
        ret state).2 :=
  ⟨scanUnpacked_grows restoresText restores _ _ ret state, rfl, rfl⟩

theorem scanIf_restores
    (condition : Bool)
    (restores : scanner.Restores nameFor) :
    Scanner.Restores nameFor (scanIf condition scanner) := by
  intro state
  rw [scanIf]
  split
  · exact restores state
  · exact .refl state

/-- So does the late part of a scan. -/
theorem scanLate_returns
    {later : Ret → Scanner}
    (restoresLate : late.Restores nameFor)
    (restoresLater : ∀ ret, (later ret).Restores nameFor)
    (mail : Ret)
    (old : Option Nat)
    (ret : Ret)
    (state : State) :
    ∃ middle, Returns nameFor state middle ∧
      Returns nameFor (middle.leave old)
        (scanLate engine info mail late later old ret state).2 := by
  rw [scanLate]
  have matches' := scanIf_restores (matchesLate engine info) restoresLate state
  generalize scanIf (matchesLate engine info) late state = matched at matches'
  obtain ⟨ret2, matched⟩ := matched
  dsimp only
  split
  · exact ⟨matched, matches', .refl _⟩
  split
  · exact ⟨matched, matches', .refl _⟩
  have scans := restoresLater ret matched.deeper
  generalize later ret matched.deeper = scanned at scans
  obtain ⟨ret, scanned⟩ := scanned
  have rescans := scans.trans (@matchMail_returns nameFor info mail ret scanned)
  exact ⟨_, matches'.trans ⟨rescans.toGrows.higher, rescans.type, rescans.size⟩,
    finishObject_returns _ _⟩

/-- So does the scan of an object if its parts do. -/
theorem scanObject_restores
    {later : Ret → Scanner}
    {early : Scanner}
    (restoresText : ∀ text, (scanText text).Restores nameFor)
    (restoresUnpack : ∀ ret, (unpack ret).Restores nameFor)
    (restoresEarly : early.Restores nameFor)
    (restoresLate : late.Restores nameFor)
    (restoresLater : ∀ ret, (later ret).Restores nameFor) :
    Scanner.Restores nameFor
      (scanObject engine nameFor scanText info bare mail unpack early late later) := by
  intro state
  rw [scanObject]
  have enters := @enterObject_returns engine nameFor info state
  generalize enterObject engine info state = entered at enters
  cases entered with
  | inl returned => exact enters
  | inr entered =>
    obtain ⟨middle, isMiddle, isBitset, rfl⟩ := enters
    dsimp only
    rw [← isBitset, ← isMiddle.type, ← isMiddle.size]
    refine isMiddle.trans ?_
    split
    · obtain ⟨matched, isMatched, isLeft⟩ :=
        @scanBare_returns engine nameFor info bare middle.hookLsigMatches (middle.inside none)
      rw [isLeft]
      exact isMatched.leave
    split
    · exact (Returns.refl (middle.inside none)).leave
    split
    · -- the map of the object stays on the stack
      exact ⟨⟨⟨[.bitsetFails], rfl, rfl, rfl, by simp [Named]⟩, rfl, rfl⟩, rfl, rfl⟩
    have isNew : Returns nameFor (middle.inside (some middle.bitsets))
        (middle.inside none).newBitset :=
      .of_eq rfl rfl rfl rfl rfl rfl rfl
    have matches' := isNew.trans (scanIf_restores (matchesEarly engine info) restoresEarly _)
    generalize scanIf (matchesEarly engine info) early (middle.inside none).newBitset = matched
      at matches'
    obtain ⟨ret, matched⟩ := matched
    split
    · exact matches'.leave
    have unpacks := @scanUnpacked_returns engine nameFor info scanText unpack restoresText
      restoresUnpack ret matched
    rw [show matched.containerType = middle.containerType from matches'.type,
      show matched.containerSize = middle.containerSize from matches'.size] at unpacks
    generalize scanUnpacked engine nameFor scanText info unpack middle.containerType
      middle.containerSize ret matched = unpacked at unpacks
    obtain ⟨ret, unpacked⟩ := unpacked
    dsimp only
    split
    · exact (matches'.trans unpacks).leave
    · obtain ⟨last, isLast, finishes⟩ := @scanLate_returns engine nameFor info late later
        restoresLate
        restoresLater mail middle.hookLsigMatches ret unpacked
      exact ((matches'.trans unpacks).trans isLast).leave.trans finishes

/-- An embedded program only adds to the trace. -/
theorem cliScanembpe_grows
    {whole cut : Scanner}
    (need : Nat)
    (restoresWhole : whole.Restores nameFor)
    (restoresCut : cut.Restores nameFor)
    (unlinkFails : Bool)
    (state : State) :
    Grows nameFor state (cliScanembpe engine need whole cut unlinkFails state).2 := by
  rw [cliScanembpe]
  have asks := @returns_withinLimits engine nameFor state need
  generalize withinLimits engine state need = asked at asks
  obtain ⟨within, asked⟩ := asked
  dsimp only at asks ⊢
  generalize isScanned : (if within = true then whole asked.deeper else cut asked.deeper) = scanned
  have scans : Grows nameFor asked.deeper scanned.2 := by
    rw [← isScanned]
    split
    · exact (restoresWhole _).toGrows
    · exact (restoresCut _).toGrows
  obtain ⟨ret, scanned⟩ := scanned
  split
  · -- the level of recursion is not left
    obtain ⟨events, isTrace, isRecursion, isFmap, named⟩ := scans.events
    refine asks.toGrows.trans ⟨⟨events ++ [.embeddedVirus], ?_, ?_, ?_, ?_⟩, scans.bitset,
      scans.name⟩
    · change scanned.trace ++ [Event.embeddedVirus] = _
      rw [isTrace, append_assoc]
      rfl
    · change scanned.recursion = _
      rw [isRecursion, count_append, count_singleton_self]
      change asked.recursion + 1 + _ = _
      omega
    · change scanned.fmap.length = _
      rw [isFmap, count_append]
      rfl
    · intro conversion isConversion
      exact named conversion (by simpa using isConversion)
  · exact asks.toGrows.trans scans.higher

/-- The scan by type leaves the context. -/
theorem scanTyped_restores
    {found last : Ret → Scanner}
    (container : Option (FileType × Nat))
    (grows : ∀ ret state, Grows nameFor state (found ret state).2)
    (restores : ∀ ret, (last ret).Restores nameFor) :
    Scanner.Restores nameFor (scanTyped found container last) := by
  intro state
  rw [scanTyped]
  have finds := grows .clean state.deeper
  generalize found .clean state.deeper = embedded at finds
  obtain ⟨nret, embedded⟩ := embedded
  dsimp only
  have gives := finds.trans (grows_withContainer embedded state.containerType state.containerSize)
  split
  · exact ⟨gives.higher, rfl, rfl⟩
  have enters : Grows nameFor state.deeper
      ((embedded.withContainer state.containerType state.containerSize).withLast container) := by
    cases container with
    | none => exact gives
    | some container => exact gives.trans (grows_withContainer _ _ _)
  generalize (embedded.withContainer state.containerType state.containerSize).withLast container =
    entered at enters
  have scans := restores nret entered
  generalize last nret entered = scanned at scans
  obtain ⟨nret, scanned⟩ := scanned
  have leaves := (enters.trans scans.toGrows).trans
    (grows_withContainer scanned state.containerType state.containerSize)
  exact ⟨leaves.higher, rfl, rfl⟩

theorem belowLimit_restores
    (restores : scanner.Restores nameFor) :
    Scanner.Restores nameFor (belowLimit engine scanner) := by
  intro state
  rw [belowLimit]
  split
  · exact returns_limit state
  · exact restores state

end

section

variable {engine : Engine} {nameFor : Option Name → Name → Option Name}
variable {scanText : Object → Scanner}

mutual

/-- `cli_magic_scandesc` gives back the context, apart from the two events. -/
theorem magicScandesc_restores
    (restoresText : ∀ text, (scanText text).Restores nameFor) :
    ∀ (object : Object), Scanner.Restores nameFor (magicScandesc engine nameFor scanText object)
  | .mk info bare mail unpack raw later => by
    intro state
    rw [magicScandesc]
    exact scanObject_restores bare mail restoresText
      (fun ret => runScript_restores restoresText unpack ret)
      (scanraw_restores restoresText (raw false))
      (scanraw_restores restoresText (raw (typercg engine info)))
      (fun ret => runScript_restores restoresText later ret) state

/-- Every unpacker leaves the context. -/
theorem runScript_restores
    (restoresText : ∀ text, (scanText text).Restores nameFor) :
    ∀ (script : Script) (ret : Ret),
      Scanner.Restores nameFor (runScript engine nameFor scanText script ret)
  | .absent, ret => fun state => by
    rw [runScript]
    exact .refl state
  | .done _, ret => fun state => by
    rw [runScript]
    exact .refl state
  | .checklimits need next, ret => fun state => by
    rw [runScript]
    have asks := @returns_withinLimits engine nameFor state need
    generalize withinLimits engine state need = asked at asks
    obtain ⟨within, asked⟩ := asked
    exact asks.trans (runScript_restores restoresText (next within) ret asked)
  | .unwanted next, ret => fun state => by
    rw [runScript]
    exact (returns_foundPossiblyUnwanted state).trans (runScript_restores restoresText next ret _)
  | .scan part next, ret => fun state => by
    rw [runScript]
    have scans := magicScandesc_restores restoresText part state
    generalize magicScandesc engine nameFor scanText part state = scanned at scans
    obtain ⟨found, scanned⟩ := scanned
    exact scans.trans (runScript_restores restoresText (next found) ret scanned)

/-- So does the raw scan. -/
theorem scanraw_restores
    (restoresText : ∀ text, (scanText text).Restores nameFor) :
    ∀ (raw : Raw), Scanner.Restores nameFor (scanraw engine nameFor scanText raw)
  | .matched ret => fun state => by
    rw [scanraw]
    exact belowLimit_restores (fun state => .refl state) state
  | .typed found container last => fun state => by
    rw [scanraw]
    exact belowLimit_restores (scanTyped_restores container
      (fun ret state => scanFound_grows restoresText found ret state)
      (fun ret => runScript_restores restoresText last ret)) state

/-- What is found in it only adds to the trace. -/
theorem scanFound_grows
    (restoresText : ∀ text, (scanText text).Restores nameFor) :
    ∀ (found : Found) (nret : Ret) (state : State),
      Grows nameFor state (scanFound engine nameFor scanText found nret state).2
  | .nil, nret, state => by
    rw [scanFound]
    exact .refl state
  | .sfx type size script rest, nret, state => by
    rw [scanFound]
    have enters := @grows_withContainer nameFor state type size
    have scans := runScript_restores restoresText script nret (state.withContainer type size)
    generalize runScript engine nameFor scanText script nret (state.withContainer type size) =
      scanned
      at scans
    obtain ⟨nret, scanned⟩ := scanned
    dsimp only
    split
    · exact enters.trans scans.toGrows
    · exact (enters.trans scans.toGrows).trans (scanFound_grows restoresText rest nret scanned)
  | .noHeader size rest, nret, state => by
    rw [scanFound]
    exact (grows_withContainer state .msexe size).trans (scanFound_grows restoresText rest nret _)
  | .embpeFails size ret, _, state => by
    rw [scanFound]
    exact grows_withContainer state .msexe size
  | .embpe size need whole cut unlinkFails, _, state => by
    rw [scanFound]
    exact (grows_withContainer state .msexe size).trans
      (cliScanembpe_grows need (magicScandesc_restores restoresText whole)
        (magicScandesc_restores restoresText cut) unlinkFails _)

end

/-- The same with texts of documents, at any depth. -/
theorem scanWithin_restores
    (depth : Nat) :
    ∀ object, Scanner.Restores nameFor (scanWithin engine nameFor depth object) := by
  induction depth with
  | zero =>
    intro object state
    exact returns_log state Event.noConfusion Event.noConfusion (by simp [Named])
  | succ depth inductionHypothesis =>
    intro object state
    exact magicScandesc_restores inductionHypothesis object state

end

/-- The values that a scan must give back. -/
structure Restored (before after : State) : Prop where
  recursion : after.recursion = before.recursion
  fmap : after.fmap.length = before.fmap.length
  containerType : after.containerType = before.containerType
  containerSize : after.containerSize = before.containerSize
  hookLsigMatches : after.hookLsigMatches = before.hookLsigMatches

/-- What happens in a scan. -/
def eventsOf
    (engine : Engine)
    (depth : Nat)
    (object : Object)
    (state : State) :
    List Event :=
  (cliMagicScandesc engine depth object state).2.trace.drop state.trace.length

/--
A scan gives back the five values exactly if no bitset fails to be allocated and no
embedded executable is reported infected while it runs.
-/
theorem magicScandesc_restored_iff
    (engine : Engine)
    (depth : Nat)
    (object : Object)
    (state : State) :
    Restored state (cliMagicScandesc engine depth object state).2 ↔
      Event.bitsetFails ∉ eventsOf engine depth object state ∧
        Event.embeddedVirus ∉ eventsOf engine depth object state := by
  have restores : Returns processName state (cliMagicScandesc engine depth object state).2 :=
    scanWithin_restores depth object state
  obtain ⟨events, isTrace, isRecursion, isFmap, _⟩ := restores.events
  have isEvents : eventsOf engine depth object state = events := by
    rw [eventsOf, isTrace, drop_left]
  rw [isEvents, ← count_eq_zero, ← count_eq_zero]
  constructor
  · intro restored
    have sameRecursion := restored.recursion
    have sameFmap := restored.fmap
    omega
  rintro ⟨noBitset, noEmbedded⟩
  refine ⟨?_, ?_, restores.type, restores.size, restores.bitset⟩
  · omega
  · omega

/-- An engine with the default limit of recursion and no others. -/
def plainEngine : Engine where
  maxreclevel := 16
  maxscansize := 0
  maxfilesize := 0
  maxfiles := 0
  compiled := true
  sdb := false
  caches := false
  options := true
  scanArchiveZip := true
  htmlSkipraw := false
  structured := fun _ => false
  convert := fun _ _ => none
  evicts := fun _ _ => false

/-- A process that has scanned nothing. -/
def Process.fresh : Process := ⟨none, fun _ => none⟩

def sampleInfo (type : FileType) (falsePositive : Bool) : Info where
  name := []
  digest := 0
  size := 1024
  type := type
  falsePositive := falsePositive
  fstatFails := false
  fmapFails := false
  bitsetFails := false

/-- A file that matches a signature or not. -/
def leaf (ret : Ret) : Object :=
  .mk (sampleInfo .msexe false) ret .clean .absent (fun _ => .matched ret) .absent

/-- A false positive that embeds an executable. -/
def embedding (ret : Ret) : Object := .mk (sampleInfo .msexe true) .clean .clean .absent
    (fun _ => .typed (.embpe 0 1536 (leaf ret) (leaf ret) false) none .absent) .absent

theorem restored_embedding_clean :
    Restored Process.fresh.context
      (cliMagicScandesc plainEngine 1 (embedding .clean) Process.fresh.context).2 :=
  (magicScandesc_restored_iff plainEngine 1 (embedding .clean) Process.fresh.context).mpr
    (by decide +kernel)

/--
The embedded executable is infected; the file as a whole is a false positive, so the scan
goes on, one level too deep.
-/
theorem recursion_not_restored :
    (cliMagicScandesc plainEngine 1 (embedding .virus) Process.fresh.context).1 = .clean ∧
      (cliMagicScandesc plainEngine 1 (embedding .virus) Process.fresh.context).2.recursion =
        1 := by
  decide +kernel

end LibClamav.Scan
