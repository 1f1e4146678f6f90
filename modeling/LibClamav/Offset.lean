import LibClamav.CText

namespace LibClamav

open CText List

/-!
# Signature offsets

Bytes of a scanned buffer, the return codes of the loaders, and `cli_caloff`:
the decoding of the offset field of a signature, and the offsets that depend on
a scanned file.  What the header parsers read from the file is a parameter.
-/

/-- The byte a C program reads at one index of a buffer. -/
def byteAt (buffer : List UInt8) (index : Nat) : UInt8 := buffer.getD index 0

theorem byteAt_drop
    (buffer : List UInt8)
    (start index : Nat) :
    byteAt (buffer.drop start) index = byteAt buffer (start + index) := by
  simp [byteAt, getD_eq_getElem?_getD, getElem?_drop]

theorem byteAt_append_left
    {front : List UInt8}
    {index : Nat}
    (rest : List UInt8)
    (inside : index < front.length) :
    byteAt (front ++ rest) index = byteAt front index := by
  simp [byteAt, getD_eq_getElem?_getD, getElem?_append_left inside]

theorem isPrefix_drop_iff
    {bytes buffer : List UInt8}
    {start : Nat}
    (nonempty : 0 < bytes.length) :
    bytes <+: buffer.drop start ↔ start + bytes.length ≤ buffer.length ∧ ∀ k < bytes.length,
          byteAt buffer (start + k) = byteAt bytes k := by
  constructor
  · rintro ⟨behind, shape⟩
    have lengths := congrArg length shape
    rw [length_append, length_drop] at lengths
    refine ⟨by omega, ?_⟩
    intro k inside
    rw [← byteAt_drop, ← shape, byteAt_append_left behind inside]
  rintro ⟨fits, same⟩
  rw [prefix_iff_eq_take]
  apply ext_getElem
  · rw [length_take, length_drop]
    omega
  intro k inBytes inTake
  have equal := same k inBytes
  simp only [byteAt, getD_eq_getElem?_getD] at equal
  rw [getElem?_eq_getElem (by omega), getElem?_eq_getElem inBytes] at equal
  simpa using equal.symm

/-- Error codes of the signature loaders and the scanners. -/
inductive ClError where
  | emalfdb
  | enullarg
  | earg
  | emem
  deriving Repr, DecidableEq

/-- The values of `offdata[0]`; `unset` is the zero of a fresh pattern. -/
inductive OffType where
  | unset
  | any
  | absolute
  | eofMinus
  | epPlus
  | epMinus
  | slPlus
  | sxPlus
  | version
  | macroGroup
  deriving Repr, DecidableEq

/-- The four words of `offdata`. -/
structure OffData where
  type : OffType := .unset
  value : Nat := 0
  maxShift : Nat := 0
  sectionNumber : Nat := 0
  deriving Repr, DecidableEq

/-- `CLI_OFF_ANY` -/
def offAny : Nat := 0xffffffff

/-- `CLI_OFF_NONE` -/
def offNone : Nat := 0xfffffffe

/-- A decoded offset field: `offdata`, `offset_min` and `offset_max`. -/
structure Offset where
  offdata : OffData
  offsetMin : Nat
  offsetMax : Nat
  deriving Repr, DecidableEq

/-- `cli_isnumber`, which does not look at the first character. -/
def cliIsnumber (text : List Char) : Bool := text.tail.all Char.isDigit

/-- `atoi`, stored into an unsigned word. -/
def atoi (text : List Char) : Nat := ((scanUnsigned text).map Prod.fst).getD 0

/-- The part of a field before its first comma, and the part behind it. -/
def splitComma (text : List Char) : List Char × Option (List Char) :=
  match text.span (· ≠ ',') with
  | (front, _ :: behind) => (front, some behind)
  | (front, []) => (front, none)

/-- `sscanf(offcpy, "S%u+%u", &n, &val) == 2` -/
def scanSection (text : List Char) : Option (Nat × Nat) :=
  match text with
  | 'S' :: rest =>
    match scanUnsigned rest with
    | some (n, '+' :: behind) =>
      (scanUnsigned behind).map fun converted => (n, converted.1)
    | _ => none
  | _ => none

/-- `sscanf(offcpy, "$%u$", &n) == 1` -/
def scanMacro (text : List Char) : Option Nat :=
  match text with
  | '$' :: rest => (scanUnsigned rest).map Prod.fst
  | _ => none

/-- The number of a relative offset such as `EP+`, `SL+` or `EOF-`. -/
def relativeOffset
    (type : OffType)
    (maxShift : Nat)
    (number : List Char) :
    Except ClError Offset :=
  if cliIsnumber number then
    .ok ⟨{ type := type, value := atoi number, maxShift := maxShift }, offNone, offNone⟩
  else
    .error .emalfdb

/-- The branches of `cli_caloff` on an offset without its shift. -/
def decodeBase (offcpy : List Char) (maxShift : Nat) : Except ClError Offset :=
  match offcpy with
  | 'E' :: 'P' :: '+' :: number => relativeOffset .epPlus maxShift number
  | 'E' :: 'P' :: '-' :: number => relativeOffset .epMinus maxShift number
  | 'S' :: 'L' :: '+' :: number => relativeOffset .slPlus maxShift number
  | 'S' :: _ =>
    match scanSection offcpy with
    | some (n, val) =>
      .ok ⟨{ type := .sxPlus, value := val, maxShift := maxShift,
             sectionNumber := n }, offNone, offNone⟩
    | none => .error .emalfdb
  | 'E' :: 'O' :: 'F' :: '-' :: number =>
    relativeOffset .eofMinus maxShift number
  | 'V' :: 'I' :: _ =>
    .ok ⟨{ type := .version, maxShift := maxShift }, offNone, offNone⟩
  | _ =>
    if '$' ∈ offcpy then
      match scanMacro offcpy with
      | none => .error .emalfdb
      | some n =>
        if n ≥ 32 then
          .error .emalfdb
        else
          .ok ⟨{ type := .macroGroup, value := n, maxShift := maxShift }, offNone, offNone⟩
    else if cliIsnumber offcpy then
      .ok ⟨{ type := .absolute, value := atoi offcpy,
             maxShift := maxShift },
        atoi offcpy, (atoi offcpy + maxShift) % 2 ^ 32⟩
    else
      .error .emalfdb

/-- Offsets into a program header need one of the three program targets. -/
def targetAllows (target : Nat) (type : OffType) : Bool :=
  type == .any || type == .absolute || type == .eofMinus ||
    type == .macroGroup || target == 1 || target == 6 || target == 9

/-- `cli_caloff(offstr, NULL, NULL, target, ...)` -/
def cliCaloff (offstr : List Char) (target : Nat) : Except ClError Offset :=
  if offstr = ['*'] then
    .ok ⟨{ type := .any }, offAny, offAny⟩
  else if offstr.length > 64 then
    .error .emalfdb
  else
    let (offcpy, shift) := splitComma offstr
    if (shift.map cliIsnumber).getD true then
      match decodeBase offcpy ((shift.map atoi).getD 0) with
      | .error code => .error code
      | .ok offset =>
        if targetAllows target offset.offdata.type then
          .ok offset
        else
          .error .emalfdb
    else
      .error .emalfdb

/-- What a header parser reads: the entry point, the raw offsets of the sections, and what stands
in place of the last one. -/
structure ExeInfo where
  ep : Nat := 0
  sections : List Nat := []
  lastRaw : Nat := 0
  deriving Repr, DecidableEq

/-- A scanned file: its length, and what the header parser of the target makes of it. -/
structure FileMap where
  len : Nat
  header : Option ExeInfo := none
  deriving Repr, DecidableEq

/-- `status` of `struct cli_target_info`. -/
inductive InfoStatus where
  | unset
  | parsed
  | failed
  deriving Repr, DecidableEq

/-- `struct cli_target_info` -/
structure TargetInfo where
  status : InfoStatus := .unset
  fsize : Nat := 0
  exeinfo : ExeInfo := {}
  deriving Repr, DecidableEq

/-- The `switch` of `cli_caloff`: the smallest offset. -/
def relativeMin (info : TargetInfo) (offdata : OffData) : Except ClError Nat :=
  match offdata.type with
  | .eofMinus => .ok ((info.fsize + 2 ^ 32 - offdata.value % 2 ^ 32) % 2 ^ 32)
  | .epPlus => .ok ((info.exeinfo.ep + offdata.value) % 2 ^ 32)
  | .epMinus => .ok ((info.exeinfo.ep + 2 ^ 32 - offdata.value % 2 ^ 32) % 2 ^ 32)
  | .slPlus => .ok ((info.exeinfo.lastRaw + offdata.value) % 2 ^ 32)
  | .sxPlus =>
    match info.exeinfo.sections[offdata.sectionNumber]? with
    | none => .ok offNone
    | some raw => .ok ((raw + offdata.value) % 2 ^ 32)
  | .version => .ok offAny
  | _ => .error .earg

/-- Whether the information for a relative offset is there. -/
inductive Gathered where
  | ready
  | nothing
  | error (code : ClError)
  deriving Repr, DecidableEq

/-- The part of `cli_caloff` before its `switch`, which fills in the information. -/
def gatherInfo
    (file : FileMap)
    (target : Nat)
    (info : TargetInfo)
    (offdata : OffData) :
    Gathered × TargetInfo :=
  if info.status = .failed then
    (.nothing, info)
  else if offdata.type = .eofMinus then
    (.ready, { info with fsize := if info.fsize = 0 then file.len else info.fsize })
  else if info.status = .unset then
    if target = 1 ∨ target = 6 ∨ target = 9 then
      match file.header with
      | none => (.nothing, { info with status := .failed })
      | some exeinfo => (.ready, { info with status := .parsed, exeinfo })
    else
      (.error .emalfdb, info)
  else
    (.ready, info)

/-- `cli_caloff(NULL, info, map, target, offdata, ...)`: the range, and the information. -/
def cliCaloffRelative
    (file : FileMap)
    (target : Nat)
    (info : TargetInfo)
    (offdata : OffData) :
    Except ClError (Nat × Nat) × TargetInfo :=
  match gatherInfo file target info offdata with
  | (.error code, info) => (.error code, info)
  | (.nothing, info) => (.ok (offNone, offNone), info)
  | (.ready, info) =>
    match relativeMin info offdata with
    | .error code => (.error code, info)
    | .ok offsetMin =>
      if offsetMin = offNone then
        (.ok (offNone, offNone), info)
      else
        (.ok (offsetMin, (offsetMin + offdata.maxShift) % 2 ^ 32), info)

/-- The offset is relative to what a program header tells. -/
def OffData.isHeader (offdata : OffData) : Bool :=
  match offdata.type with
  | .epPlus | .epMinus | .slPlus | .sxPlus => true
  | _ => false

/-- The place that a relative offset names in a file whose header can be read. -/
def relativePlace (file : FileMap) (offdata : OffData) : Nat :=
  match relativeMin { fsize := file.len, exeinfo := file.header.getD {} }
      offdata with
  | .ok place => place
  | .error _ => offNone

/-- What has been found out about a file so far is true of it. -/
structure Reading (file : FileMap) (info : TargetInfo) : Prop where
  size : info.fsize = 0 ∨ info.fsize = file.len
  parsed : info.status = .parsed → file.header = some info.exeinfo
  failed : info.status = .failed → file.header = none

/-- A place has 32 bits. -/
theorem relativePlace_lt
    (file : FileMap)
    (offdata : OffData) :
    relativePlace file offdata < 2 ^ 32 := by
  have positive : 0 < 2 ^ 32 := by decide
  have noneLt : offNone < 2 ^ 32 := by decide
  have anyLt : offAny < 2 ^ 32 := by decide
  unfold relativePlace relativeMin
  cases offdata.type with
  | sxPlus =>
    cases (file.header.getD {}).sections[offdata.sectionNumber]? with
    | none => exact noneLt
    | some raw => exact Nat.mod_lt _ positive
  | eofMinus | epPlus | epMinus | slPlus => exact Nat.mod_lt _ positive
  | version => exact anyLt
  | unset | any | absolute | macroGroup => exact noneLt

variable {file : FileMap} {offdata : OffData}

/-- With the information of the file, `cli_caloff` computes the place. -/
theorem relativeMin_eq
    {info : TargetInfo}
    (kind : offdata.type = .eofMinus ∨ offdata.isHeader = true)
    (size : offdata.type = .eofMinus → info.fsize = file.len)
    (parsed : offdata.isHeader = true → file.header = some info.exeinfo) :
    relativeMin info offdata = .ok (relativePlace file offdata) := by
  unfold relativePlace
  unfold relativeMin OffData.isHeader at *
  cases isType : offdata.type with
  | eofMinus => rw [size isType]
  | epPlus | epMinus | slPlus => rw [parsed (by rw [isType]), Option.getD_some]
  | sxPlus =>
    rw [parsed (by rw [isType]), Option.getD_some]
    cases info.exeinfo.sections[offdata.sectionNumber]? with
    | none | some raw => rfl
  | version | unset | any | absolute | macroGroup => simp [isType] at kind

variable {target : Nat} {info : TargetInfo} (reading : Reading file info)
  (allowed : targetAllows target offdata.type = true)
  (kind : offdata.type = .eofMinus ∨ offdata.isHeader = true)

include reading allowed kind

/-- The header of the file is read once. -/
theorem gatherInfo_spec : ∃ after, gatherInfo file target info offdata =
          (if after.status = .failed then .nothing else .ready, after) ∧
        Reading file after ∧
        (info.fsize = file.len → after.fsize = file.len) ∧
        (after.status = .failed ↔ info.status = .failed ∨
            (offdata.isHeader = true ∧ file.header = none)) ∧
        (after.status ≠ .failed → (offdata.type = .eofMinus → after.fsize = file.len) ∧
            (offdata.isHeader = true → file.header = some after.exeinfo)) := by
  unfold gatherInfo
  by_cases failed : info.status = .failed
  · refine ⟨info, ?_, reading, id, by simp [failed], by simp [failed]⟩
    rw [if_pos failed, if_pos failed]
  rw [if_neg failed]
  by_cases isEof : offdata.type = .eofMinus
  · have notHeader : offdata.isHeader = false := by simp [OffData.isHeader, isEof]
    have size : (if info.fsize = 0 then file.len else info.fsize) =
        file.len := by
      rcases reading.size with isZero | isLen
      · rw [if_pos isZero]
      · rw [isLen, ite_self]
    rw [if_pos isEof, size]
    refine ⟨{ info with fsize := file.len }, ?_,
      ⟨.inr rfl, reading.parsed, reading.failed⟩, fun _ => rfl, ?_, ?_⟩
    · rw [if_neg failed]
    · simp [notHeader]
    · simp [notHeader]
  · have isHeader := kind.resolve_left isEof
    rw [if_neg isEof]
    by_cases unset : info.status = .unset
    · rw [if_pos unset]
      have program : target = 1 ∨ target = 6 ∨ target = 9 := by
        unfold OffData.isHeader at isHeader
        cases isType : offdata.type with
        | _ => simp_all [targetAllows, or_assoc]
      rw [if_pos program]
      cases header : file.header with
      | none =>
        refine ⟨{ info with status := .failed }, rfl,
          ⟨reading.size, nofun,
            fun _ => header⟩, id, by simp [isHeader], by simp⟩
      | some exeinfo =>
        refine ⟨{ info with status := .parsed, exeinfo }, rfl, ⟨reading.size, fun _ => header,
            nofun⟩, id, ?_, ?_⟩
        · simp [unset]
        · simp [isEof]
    · have isParsed : info.status = .parsed := by
        cases status : info.status with
        | unset => exact absurd status unset
        | failed => exact absurd status failed
        | parsed => rfl
      have header := reading.parsed isParsed
      rw [if_neg unset]
      refine ⟨info, ?_, reading, id, ?_, ?_⟩
      · rw [if_neg failed]
      · simp [header]
      · exact fun _ => ⟨fun eof => absurd eof isEof, fun _ => header⟩

/--
`cli_caloff` without a shift gives the place of a relative offset, or no offset
from the first failure of the header parser on.
-/
theorem cliCaloffRelative_spec
    (noShift : offdata.maxShift = 0) :
    ∃ place after, cliCaloffRelative file target info offdata = (.ok (place, place), after) ∧
        place = (if after.status = .failed then offNone
          else relativePlace file offdata) ∧
        Reading file after ∧
        (info.fsize = file.len → after.fsize = file.len) ∧
        (after.status = .failed ↔ info.status = .failed ∨
            (offdata.isHeader = true ∧ file.header = none)) := by
  obtain ⟨after, gathers, afterReading, size, failed, ready⟩ := gatherInfo_spec reading allowed kind
  unfold cliCaloffRelative
  rw [gathers]
  by_cases isFailed : after.status = .failed
  · rw [if_pos isFailed]
    exact ⟨offNone, after, rfl, (if_pos isFailed).symm, afterReading, size, failed⟩
  obtain ⟨sized, parsed⟩ := ready isFailed
  have bound := relativePlace_lt file offdata
  refine ⟨relativePlace file offdata, after, ?_, ?_, afterReading, size, failed⟩
  · rw [if_neg isFailed]
    simp only
    rw [relativeMin_eq kind sized parsed, noShift]
    simp only [add_zero, Nat.mod_eq_of_lt bound]
    split_ifs with isNone
    · rw [isNone]
    · rfl
  · rw [if_neg isFailed]

end LibClamav
