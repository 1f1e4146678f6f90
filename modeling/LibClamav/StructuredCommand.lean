import LibClamav.ShellTokens

namespace LibClamav.Structured

/-!
# The command lines of the structured scanners

Documents are converted to text by programs that `system` runs.  The name of the scanned
file is put between double quotes as it is.
-/

open Shell List

/-- The programs that are run. -/
inductive Converter where
  | catdoc
  | catppt
  | pdftotext
  | ps2txt
  deriving Repr, DecidableEq

def bytesOf (text : String) : List UInt8 := text.toList.map fun c => UInt8.ofNat c.toNat

/-- What the command line begins with, as compiled for other systems than Windows. -/
def Converter.invocation : Converter → List UInt8
  | .catdoc => bytesOf "catdoc -dutf-8 "
  | .catppt => bytesOf "catppt -dutf-8 "
  | .pdftotext => bytesOf "pdftotext -q -nopgbrk "
  | .ps2txt => bytesOf "ps2txt "

/-- What stands between the name and the temporary file. -/
def Converter.separator : Converter → List UInt8
  | .pdftotext => bytesOf " "
  | _ => bytesOf " > "

/-- `command`, as `strcpy` and `strcat` make it. -/
def commandLine
    (converter : Converter)
    (filename tempfile : List UInt8) :
    List UInt8 :=
  converter.invocation ++ [quote] ++ filename ++ [quote] ++ converter.separator ++ tempfile

/-- `DEFAULT_COMMAND_LENGTH` -/
def defaultCommandLength : Nat := 1024

/-- The command and its terminator are within the buffer. -/
def FitsBuffer (command : List UInt8) : Prop := command.length + 1 ≤ defaultCommandLength

/-- A character of a portable file name, or a slash. -/
def isPortable (c : UInt8) : Bool :=
  0x61 ≤ c ∧ c ≤ 0x7a ∨ 0x41 ≤ c ∧ c ≤ 0x5a ∨ 0x2d ≤ c ∧ c ≤ 0x39 ∨ c = 0x5f

/-- A name of `cli_gentemp` in a directory whose name is portable. -/
structure TempName where
  bytes : List UInt8
  portable : ∀ c ∈ bytes, isPortable c = true
  notEmpty : bytes ≠ []

def Converter.words : Converter → List Token
  | .catdoc => [.word (bytesOf "catdoc"), .word (bytesOf "-dutf-8")]
  | .catppt => [.word (bytesOf "catppt"), .word (bytesOf "-dutf-8")]
  | .pdftotext => [.word (bytesOf "pdftotext"), .word (bytesOf "-q"), .word (bytesOf "-nopgbrk")]
  | .ps2txt => [.word (bytesOf "ps2txt")]

/-- Where the output goes. -/
def Converter.output (converter : Converter) (tempfile : List UInt8) : List Token :=
  match converter with
  | .pdftotext => [.word tempfile]
  | _ => [.operator [0x3e], .word tempfile]

/-- One command with the name of the file as its argument. -/
def intended
    (converter : Converter)
    (filename tempfile : List UInt8) :
    List Token :=
  converter.words ++ .word filename :: converter.output tempfile

theorem isOrdinary_of_isPortable : ∀ c : UInt8, isPortable c = true → isOrdinary c = true := by
  rintro ⟨c⟩
  revert c
  decide +kernel

theorem isUnquoted_of_isOrdinary : ∀ c : UInt8, isOrdinary c = true → isUnquoted c = true := by
  rintro ⟨c⟩
  revert c
  decide +kernel

/-- A temporary name needs no quotes. -/
theorem TempName.ordinary (tempfile : TempName) : ∀ c ∈ tempfile.bytes, isOrdinary c = true :=
  fun c isMem => isOrdinary_of_isPortable c (tempfile.portable c isMem)

theorem TempName.plainWeight_eq
    (tempfile : TempName) :
    plainWeight tempfile.bytes = tempfile.bytes.length :=
  countP_eq_length.mpr tempfile.ordinary

variable (converter : Converter)

theorem plainWeight_separator
    (tempfile : List UInt8) :
    plainWeight (converter.separator ++ tempfile) = plainWeight tempfile := by
  rw [plainWeight, countP_append, ← plainWeight, ← plainWeight]
  cases converter with
  | catdoc | catppt | pdftotext | ps2txt => exact zero_add _

/-- The quote and the blank behind the name. -/
theorem run_separator
    (word : List UInt8)
    (done : List Token) :
    run ⟨.plain, some (.word word), done⟩ converter.separator =
      some ⟨.plain, none, done ++ .word word :: (converter.output []).dropLast⟩ := by
  have blank (current : Option Token) (done : List Token)
      (notLonger : (⟨.plain, current, done⟩ : Lexer).extends 0x20 = none) :
      step ⟨.plain, current, done⟩ 0x20 = some ⟨.plain, none, done ++ current.toList⟩ := by
    rw [step]
    rw [plainByte, notLonger]
    rfl
  cases converter with
  | pdftotext =>
    change run _ [0x20] = _
    rw [run_cons, blank _ _ rfl]
    rfl
  | catdoc | catppt | ps2txt =>
    change run _ [0x20, 0x3e, 0x20] = _
    rw [run_cons, blank _ _ rfl]
    change run ⟨.plain, some (.operator [0x3e]), done ++ [.word word] ++ []⟩ [0x20] = _
    rw [run_cons, blank (some (.operator [0x3e])) _ rfl, append_nil, append_assoc]
    rfl

/-- The temporary name is one word. -/
theorem run_tempfile
    (tempfile : TempName)
    (done : List Token) :
    (run ⟨.plain, none, done⟩ tempfile.bytes >>= finish) =
      some (done ++ [.word tempfile.bytes]) := by
  obtain ⟨c, bytes, isBytes⟩ := exists_cons_of_ne_nil tempfile.notEmpty
  have ordinary := tempfile.ordinary
  rw [isBytes] at ordinary
  rw [isBytes, run_cons, step_ordinary (ordinary c mem_cons_self) rfl]
  change run ⟨.plain, some (.word [c]), done ++ []⟩ bytes >>= finish = _
  rw [run_ordinary bytes fun other isOther => ordinary other (mem_cons_of_mem _ isOther),
    append_nil]
  rfl

theorem tail_of_converter
    (tempfile : TempName) :
    Tail (converter.separator ++ tempfile.bytes) (converter.output tempfile.bytes) where
  unquoted := by
    intro c isMem
    have unquotedSeparator : ∀ c ∈ converter.separator, isUnquoted c = true := by
      cases converter with
      | catdoc | catppt | pdftotext | ps2txt => decide +kernel
    rcases mem_append.mp isMem with isSeparator | isTempfile
    · exact unquotedSeparator c isSeparator
    · exact isUnquoted_of_isOrdinary c (tempfile.ordinary c isTempfile)
  reads := by
    intro word done
    rw [run_append, run_separator]
    change run _ tempfile.bytes >>= finish = _
    rw [run_tempfile]
    cases converter with
    | catdoc | catppt | pdftotext | ps2txt => simp [Converter.output]
  weighs := by
    rw [plainWeight_separator, tempfile.plainWeight_eq]
    cases converter with
    | catdoc | catppt | pdftotext | ps2txt => simp [Converter.output, weigh]
  notEmpty := by
    rw [plainWeight_separator, tempfile.plainWeight_eq]
    exact length_pos_iff.mpr tempfile.notEmpty

/-- The words before the name. -/
theorem run_invocation :
    run ⟨.plain, none, []⟩ converter.invocation = some ⟨.plain, none, converter.words⟩ := by
  cases converter with
  | catdoc | catppt | pdftotext | ps2txt => decide +kernel

/--
The command line is within its buffer and runs the one command that is meant exactly if
double quotes keep the name and everything together has less than 1024 bytes.
-/
theorem command_as_intended_iff
    (converter : Converter)
    (filename : List UInt8)
    (tempfile : TempName) :
    FitsBuffer (commandLine converter filename tempfile.bytes) ∧
        tokens (commandLine converter filename tempfile.bytes) =
          some (intended converter filename tempfile.bytes) ↔
      converter.invocation.length + filename.length + converter.separator.length +
          tempfile.bytes.length + 2 < defaultCommandLength ∧
        Keepable filename := by
  apply and_congr
  · rw [FitsBuffer, commandLine]
    simp only [length_append, length_singleton]
    omega
  have isLine : commandLine converter filename tempfile.bytes = converter.invocation ++
        (quote :: filename ++ quote :: (converter.separator ++ tempfile.bytes)) := by
    simp [commandLine]
  rw [isLine, tokens, run_append, run_invocation]
  exact quoted_iff (tail_of_converter converter tempfile) filename converter.words

/-- The name `/tmp/x`. -/
def sampleTempfile : TempName where
  bytes := bytesOf "/tmp/x"
  portable := by decide +kernel
  notEmpty := by decide

theorem command_as_intended_spaces :
    tokens (commandLine .ps2txt (bytesOf "a; 'b' \\c.ps") sampleTempfile.bytes) =
      some (intended .ps2txt (bytesOf "a; 'b' \\c.ps") sampleTempfile.bytes) :=
  ((command_as_intended_iff .ps2txt (bytesOf "a; 'b' \\c.ps") sampleTempfile).mpr
    (by decide +kernel)).2

/-- A quote in the name ends the argument, and what follows is another command. -/
theorem command_runs_other :
    tokens (commandLine .catdoc (bytesOf "x\";reboot;\"") sampleTempfile.bytes) =
      some [.word (bytesOf "catdoc"), .word (bytesOf "-dutf-8"), .word (bytesOf "x"),
        .operator (bytesOf ";"), .word (bytesOf "reboot"), .operator (bytesOf ";"), .word [],
        .operator (bytesOf ">"), .word sampleTempfile.bytes] ∧
    tokens (commandLine .catdoc (bytesOf "x\";reboot;\"") sampleTempfile.bytes) ≠
      some (intended .catdoc (bytesOf "x\";reboot;\"") sampleTempfile.bytes) := by
  decide +kernel

end LibClamav.Structured
