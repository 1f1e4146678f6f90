import LibClamav.Offset
import Mathlib.Algebra.Ring.Nat

namespace LibClamav.Dlp

open CText

/-!
# Structured data detection

The detectors of `dlp.c` for credit card numbers, social security numbers and
Turkish identity numbers, and the loop of `cli_scan_structured` that hands them
a file in reads of 8191 bytes.  The detectors for regular expressions and bank
account numbers are parameters of that loop.
-/

/-- `isdigit` on a byte. -/
def isDigit (b : UInt8) : Bool := 48 ≤ b && b ≤ 57

/-- The value of a digit, `c - '0'`. -/
def digitVal (b : UInt8) : Nat := b.toNat - 48

/-- `strncmp(bytes, text, strlen(text)) == 0` -/
def startsWith (bytes : List UInt8) (text : String) : Bool :=
  bytes.take text.length == text.toList.map fun c => c.toNat.toUInt8

/--
The loop that fills `cc_digits`: the digits it finds, and the bytes that are
left where it breaks off.
-/
def ccCollect : List UInt8 → List UInt8 × List UInt8
  | [] => ([], [])
  | b :: rest =>
    if isDigit b then
      ((b :: (ccCollect rest).1), (ccCollect rest).2)
    else if b = 0x20 ∨ b = 0x2d then
      ccCollect rest
    else
      ([], b :: rest)

/-- The checksum loop, over the digits from the last one on. -/
def luhnSum : Bool → List UInt8 → Nat
  | _, [] => 0
  | mult, b :: rest =>
    let val := digitVal b
    let val := if mult then (if val * 2 > 9 then val * 2 - 9 else val * 2)
      else val
    val + luhnSum (!mult) rest

/-- The numbers of the major cards, by their count of digits. -/
def isMajorCard (ccDigits : List UInt8) : Bool :=
  let first := byteAt ccDigits 0
  let second := byteAt ccDigits 1
  match ccDigits.length with
  | 13 => first == 0x34
  | 14 =>
    if first = 0x33 ∧ (second = 0x36 ∨ second = 0x38) then
      true
    else if first = 0x33 ∧ second = 0x30 then
      decide (digitVal (byteAt ccDigits 2) ≤ 5)
    else
      false
  | 15 =>
    if first = 0x33 ∧ (second = 0x34 ∨ second = 0x37) then
      true
    else
      startsWith ccDigits "2131" || startsWith ccDigits "1800"
  | 16 =>
    if first = 0x33 then
      true
    else if first = 0x34 then
      true
    else if first = 0x35 then
      decide (1 ≤ digitVal second ∧ digitVal second ≤ 5)
    else
      startsWith ccDigits "6011"
  | _ => false

/-- `dlp_is_valid_cc`, on the bytes from `buffer` to the end. -/
def dlpIsValidCc (buffer : List UInt8) : Bool :=
  if buffer.length < 13 then
    false
  else if isDigit (byteAt buffer 0) = false ∨ byteAt buffer 0 > 0x36 then
    false
  else
    let (ccDigits, left) := ccCollect (buffer.take 19)
    if ccDigits.length < 13 ∨ left.head?.any isDigit then
      false
    else if luhnSum false ccDigits.reverse % 10 ≠ 0 then
      false
    else
      isMajorCard ccDigits

/-- `SSN_FORMAT_HYPHENS` and `SSN_FORMAT_STRIPPED` -/
inductive SsnFormat where
  | hyphens
  | stripped
  deriving Repr, DecidableEq

/-- `MAX_AREA` -/
def maxArea : Int := 772

/-- The conversion `%Nd` of `sscanf`: the number and what is left. -/
def scanInt (width : Nat) (text : List Char) : Option (Int × List Char) :=
  let field := text.dropWhile isSpace
  let (negative, unsignedField) := splitSign (field.take width)
  let (digits, behind) := unsignedField.span Char.isDigit
  if digits = [] then
    none
  else
    some (if negative then - (digitsValue digits : Int) else digitsValue digits,
        behind ++ field.drop width)

/-- `sscanf(numbuf, "%3d-%2d-%4d", …)` with three conversions. -/
def scanHyphens (numbuf : List Char) : Option (Int × Int × Int) :=
  match scanInt 3 numbuf with
  | some (area, '-' :: rest) =>
    match scanInt 2 rest with
    | some (group, '-' :: rest) =>
      (scanInt 4 rest).map fun serial => (area, group, serial.1)
    | _ => none
  | _ => none

/-- `sscanf(numbuf, "%3d%2d%4d", …)` with three conversions. -/
def scanStripped (numbuf : List Char) : Option (Int × Int × Int) :=
  match scanInt 3 numbuf with
  | some (area, rest) =>
    match scanInt 2 rest with
    | some (group, rest) =>
      (scanInt 4 rest).map fun serial => (area, group, serial.1)
    | none => none
  | none => none

/-- The ranges of the three numbers. -/
def ssnInRange (area group serial : Int) : Bool :=
  let retval :=
    !(area > maxArea || area == 666 || area ≤ 0 || group ≤ 0 || group > 99 ||
      serial ≤ 0 || serial > 9999)
  if area = 987 ∧ group = 65 ∧ serial ≥ 4320 ∧ serial ≤ 4329 then
    false
  else
    retval

/-- `minlength` -/
def SsnFormat.minlength : SsnFormat → Nat
  | .hyphens => 11
  | .stripped => 9

/-- `dlp_is_valid_ssn`, on the bytes from `buffer` to the end. -/
def dlpIsValidSsn (format : SsnFormat) (buffer : List UInt8) : Bool :=
  let minlength := format.minlength
  if buffer.length < minlength then
    false
  else if buffer.length > minlength ∧ isDigit (byteAt buffer minlength) then
    false
  else
    -- `strncpy` stops at a zero byte
    let numbuf := ((buffer.take minlength).takeWhile (· ≠ 0)).map
      fun b => Char.ofNat b.toNat
    let numbers :=
      match format with
      | .hyphens =>
        if charAt numbuf 3 ≠ '-' ∨ charAt numbuf 6 ≠ '-' then none
        else scanHyphens numbuf
      | .stripped =>
        if !cliIsnumber numbuf then none else scanStripped numbuf
    match numbers with
    | none => false
    | some (area, group, serial) => ssnInRange area group serial

/-- `dlp_is_valid_tr_id`, on the bytes from `buffer` to the end. -/
def dlpIsValidTrId (buffer : List UInt8) : Bool :=
  if buffer.length < 11 then
    false
  else if isDigit (byteAt buffer 0) = false ∨ byteAt buffer 0 = 0x30 then
    false
  else
    let digits := buffer.take 11
    if digits.all isDigit then
      let digit (i : Nat) : Int := digitVal (byteAt digits i)
      let sum1 :=
        ((digit 0 + digit 2 + digit 4 + digit 6 + digit 8) * 7 -
          (digit 1 + digit 3 + digit 5 + digit 7)).tmod 10
      let sum2 := ((digits.take 10).map digitVal).sum % 10
      decide (sum1 = digit 9 ∧ (sum2 : Int) = digit 10)
    else
      false

/-- `DETECT_MODE_DETECT` and `DETECT_MODE_COUNT` -/
inductive DetectMode where
  | detect
  | count
  deriving Repr, DecidableEq

/-- A digit without a digit before it, where a valid number begins. -/
def acceptsAt (valid : List UInt8 → Bool) (buffer : List UInt8) (i : Nat) : Bool :=
  isDigit (byteAt buffer i) && (i == 0 || !isDigit (byteAt buffer (i - 1))) && valid (buffer.drop i)

/-- `while(idx < end)`; a counted number is hopped over. -/
def containsLoop
    (valid : List UInt8 → Bool)
    (hop : Nat)
    (detmode : DetectMode)
    (buffer : List UInt8) :
    Nat → Nat → Nat → Nat
  | 0, _, count => count
  | fuel + 1, i, count =>
    if i < buffer.length then
      if acceptsAt valid buffer i then
        match detmode with
        | .detect => 1
        | .count =>
          containsLoop valid hop detmode buffer fuel (i + hop + 1) (count + 1)
      else
        containsLoop valid hop detmode buffer fuel (i + 1) count
    else
      count

/-- The common part of the `contains_*` functions. -/
def containsNumber
    (minlength : Nat)
    (valid : List UInt8 → Bool)
    (hop : Nat)
    (detmode : DetectMode)
    (buffer : List UInt8) :
    Nat :=
  if buffer.length < minlength then
    0
  else
    containsLoop valid hop detmode buffer buffer.length 0 0

/-- `contains_cc` -/
def containsCc
    (buffer : List UInt8)
    (detmode : DetectMode) :
    Nat := containsNumber 13 dlpIsValidCc
    (if buffer.length > 15 then 15 else buffer.length - 1) detmode buffer

/-- `contains_ssn` -/
def containsSsn
    (buffer : List UInt8)
    (format : SsnFormat)
    (detmode : DetectMode) :
    Nat :=
  containsNumber 9 (dlpIsValidSsn format) (match format with
      | .hyphens => 11
      | .stripped => 9) detmode buffer

/-- `contains_tr_id` -/
def containsTrId (buffer : List UInt8) (detmode : DetectMode) : Nat :=
  containsNumber 11 dlpIsValidTrId
    (if buffer.length > 11 then 11 else buffer.length - 1) detmode buffer

/-- `dlp_get_cc_count` -/
def dlpGetCcCount (buffer : List UInt8) : Nat := containsCc buffer .count

/-- `dlp_has_cc` -/
def dlpHasCc (buffer : List UInt8) : Nat := containsCc buffer .detect

/-- `dlp_get_stripped_ssn_count` -/
def dlpGetStrippedSsnCount (buffer : List UInt8) : Nat := containsSsn buffer .stripped .count

/-- `dlp_get_normal_ssn_count` -/
def dlpGetNormalSsnCount (buffer : List UInt8) : Nat := containsSsn buffer .hyphens .count

/-- `dlp_get_ssn_count` -/
def dlpGetSsnCount (buffer : List UInt8) : Nat :=
  dlpGetStrippedSsnCount buffer + dlpGetNormalSsnCount buffer

/-- `dlp_has_ssn`; both functions are called. -/
def dlpHasSsn (buffer : List UInt8) : Nat :=
  containsSsn buffer .hyphens .detect ||| containsSsn buffer .stripped .detect

/-- `dlp_has_stripped_ssn` -/
def dlpHasStrippedSsn (buffer : List UInt8) : Nat := containsSsn buffer .stripped .detect

/-- `dlp_has_normal_ssn` -/
def dlpHasNormalSsn (buffer : List UInt8) : Nat := containsSsn buffer .hyphens .detect

/-- `dlp_get_tr_id_count` -/
def dlpGetTrIdCount (buffer : List UInt8) : Nat := containsTrId buffer .count

/-- `dlp_has_tr_id` -/
def dlpHasTrId (buffer : List UInt8) : Nat := containsTrId buffer .detect

/-- What `cli_scan_structured` can report. -/
inductive Finding where
  | creditCardNumber
  | ssn
  | regex
  | trId
  | iban
  deriving Repr, DecidableEq

/-- The findings in the order in which they are looked for and reported. -/
def Finding.all : List Finding := [.creditCardNumber, .ssn, .regex, .trId, .iban]

/-- `virname`; the last two are followed by what was found. -/
def Finding.virname : Finding → String
  | .creditCardNumber => "Heuristics.Structured.CreditCardNumber"
  | .ssn => "Heuristics.Structured.SSN"
  | .trId => "Heuristics.Structured.TRid"
  | .regex => "Heuristics.Structured.Regex-"
  | .iban => "Heuristics.Structured.IBAN-"

/--
The settings of the engine that are read, the two option bits for social
security numbers, and the detectors of the other two classes.
-/
structure Engine where
  minCount : Finding → Nat
  ssnNormal : Bool
  ssnStripped : Bool
  dlpHasRegex : List UInt8 → Nat
  dlpGetRegexCount : List UInt8 → Nat
  dlpHasIban : List UInt8 → Nat
  dlpGetIbanCount : List UInt8 → Nat

/-- Whether there is a number is enough for a minimum of 1. -/
def hasOrCount (minCount : Nat) (has count : List UInt8 → Nat) : List UInt8 → Nat :=
  if minCount = 1 then has else count

/-- `ssnfunc` for its three cases, if it is not null. -/
def ssnFunc (engine : Engine) : Option (List UInt8 → Nat) :=
  let minCount := engine.minCount .ssn
  match engine.ssnNormal, engine.ssnStripped with
  | true, true => some (hasOrCount minCount dlpHasSsn dlpGetSsnCount)
  | true, false =>
    some (hasOrCount minCount dlpHasNormalSsn dlpGetNormalSsnCount)
  | false, true =>
    some (hasOrCount minCount dlpHasStrippedSsn dlpGetStrippedSsnCount)
  | false, false => none

/-- The function of a finding; a minimum of 0 disables it. -/
def structuredFunc
    (engine : Engine)
    (finding : Finding) :
    Option (List UInt8 → Nat) :=
  if engine.minCount finding = 0 then
    none
  else
    match finding with
    | .creditCardNumber =>
      some (hasOrCount (engine.minCount finding) dlpHasCc dlpGetCcCount)
    | .ssn => ssnFunc engine
    | .regex =>
      some (hasOrCount (engine.minCount finding) engine.dlpHasRegex engine.dlpGetRegexCount)
    | .trId =>
      some (hasOrCount (engine.minCount finding) dlpHasTrId dlpGetTrIdCount)
    | .iban =>
      some (hasOrCount (engine.minCount finding) engine.dlpHasIban engine.dlpGetIbanCount)

/-- The size of one read. -/
def readSize : Nat := 8191

/-- The counters after one more buffer. -/
def addCounts
    (engine : Engine)
    (buf : List UInt8)
    (counts : Finding → Nat) :
    Finding → Nat :=
  fun finding =>
    match structuredFunc engine finding with
    | none => counts finding
    | some func => (counts finding + func buf) % 2 ^ 32

/-- `done`: an enabled counter has reached its minimum. -/
def isDone
    (engine : Engine)
    (counts : Finding → Nat) :
    Bool := Finding.all.any fun finding =>
    (structuredFunc engine finding).isSome && decide (counts finding ≥ engine.minCount finding)

/-- `while(!done && ((result = cli_readn(desc, buf, 8191)) > 0))` -/
def structuredLoop (engine : Engine) : Nat → List UInt8 → (Finding → Nat) → Finding → Nat
  | 0, _, counts => counts
  | fuel + 1, content, counts =>
    if content = [] then
      counts
    else
      let added := addCounts engine (content.take readSize) counts
      if isDone engine added then
        added
      else
        structuredLoop engine fuel (content.drop readSize) added

/-- `cli_scan_structured`; nothing found is `CL_CLEAN`. -/
def cliScanStructured (engine : Engine) (content : List UInt8) : Option Finding :=
  let counts := structuredLoop engine content.length content fun _ => 0
  Finding.all.find? fun finding =>
    engine.minCount finding != 0 && counts finding != 0 &&
      decide (counts finding ≥ engine.minCount finding)

end LibClamav.Dlp
