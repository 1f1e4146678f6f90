import LibClamav.BytecodeLoadSource

namespace LibClamav.Bytecode

open List

/-!
# The API of bytecode

`cli_bcapi_atoi`, whose last loop reads the same digit for ever, and the calls that
read a file, of which `cli_bcapi_input_switch` does not restore the size.  The text of
a number is the `len` bytes at `str`, and an `int32_t` is its bits.
-/

/-- The text behind the blanks and one plus sign. -/
def behindPlus (text : List UInt8) : List UInt8 :=
  let str := text.dropWhile isSpace
  if str.head? = some 0x2b then str.tail else str

/-- The last loop of `cli_bcapi_atoi`: it does not move `str`. -/
def atoiDigits : Nat → UInt32 → List UInt8 → Option UInt32
  | 0, _, _ => none
  | _ + 1, number, [] => some number
  | fuel + 1, number, c :: rest =>
    if isDigit c then
      atoiDigits fuel (number * 10 + (c - 0x30).toUInt32) (c :: rest)
    else
      some number

/-- `cli_bcapi_atoi`; nothing if the fuel is used up. -/
def cliBcapiAtoi (fuel : Nat) (text : List UInt8) : Option UInt32 :=
  match behindPlus text with
  | [] => some (-1)
  | c :: rest =>
    if c = 0x2d then
      some (-1)
    else if ¬ isDigit c then
      some (-1)
    else
      atoiDigits fuel 0 (c :: rest)

/-- The digits that a number is to be read from. -/
def digitRun (text : List UInt8) : List UInt8 := (behindPlus text).takeWhile isDigit

/-- The number that is asked for. -/
def atoiValue (text : List UInt8) : UInt32 :=
  if digitRun text = [] then -1 else .ofNat (decimal (digitRun text))

theorem atoiDigits_eq_none
    {c : UInt8}
    (digit : isDigit c)
    (rest : List UInt8)
    (fuel : Nat)
    (number) :
    atoiDigits fuel number (c :: rest) = none := by
  induction fuel generalizing number with
  | zero => rfl
  | succ fuel ih => exact by rw [atoiDigits, if_pos digit, ih]

/-- `cli_bcapi_atoi` returns the number if and only if there are no digits to read it from. -/
theorem cliBcapiAtoi_returns_iff
    (text : List UInt8) :
    (∃ fuel, cliBcapiAtoi fuel text = some (atoiValue text)) ↔ digitRun text = [] := by
  rw [atoiValue, digitRun]
  cases isText : behindPlus text with
  | nil => simp [cliBcapiAtoi, isText]
  | cons c rest =>
    by_cases digit : isDigit c
    · have notMinus : c ≠ 0x2d := by
        rintro rfl
        cases digit
      simp [cliBcapiAtoi, isText, digit, notMinus, atoiDigits_eq_none digit]
    · simp [cliBcapiAtoi, isText, digit]

/-- The text `5` keeps it running. -/
theorem cliBcapiAtoi_spins : atoiValue [0x35] = 5 ∧ ∀ fuel, cliBcapiAtoi fuel [0x35] = none :=
  ⟨rfl, fun fuel => atoiDigits_eq_none rfl [] fuel 0⟩

/-- `fmap_t`: the bytes that are mapped, and where they start in their file. -/
structure Fmap where
  bytes : List UInt8
  offset : Nat

/-- `fmap_readn`, which refuses to read nothing. -/
def fmapReadn (map : Fmap) (start len : Nat) : Option (List UInt8) :=
  let read := (map.bytes.drop start).take len
  if map.bytes.length < start ∨ read = [] then none else some read

/-- What the calls on the file use of `struct cli_bc_ctx`. -/
structure FileView where
  fileSize : UInt32
  off : Nat
  fmap : Fmap

structure BcCtx extends FileView where
  saveMap : Fmap
  extractedFileInput : Bool

/-- `cli_bytecode_context_setfile` -/
def contextSetfile (ctx : BcCtx) (map : Fmap) : BcCtx :=
  { ctx with fmap := map, fileSize := .ofNat (map.bytes.length + map.offset) }

/-- `cli_bcapi_input_switch`, if there is an extracted file; an empty one is not mapped. -/
def inputSwitch
    (extracted : List UInt8)
    (extractedFile : Bool)
    (ctx : BcCtx) :
    Int × BcCtx :=
  if ctx.extractedFileInput = extractedFile then
    (0, ctx)
  else if ¬ extractedFile then
    (0, { ctx with fmap := ctx.saveMap, extractedFileInput := false })
  else if extracted = [] then
    (-1, ctx)
  else
    (0, { contextSetfile ctx ⟨extracted, 0⟩ with saveMap := ctx.fmap, extractedFileInput := true })

inductive FileCall where
  | seek (pos : Int) (whence : Nat)
  | read (size : Int)
  | fileFind (data : List UInt8)

-- `cli_bcapi_file_find` uses only the map and the position
variable (find : Fmap → Nat → List UInt8 → UInt32)

namespace FileView

/-- The value and the bytes that a call returns, and the position, all that it changes. -/
def call (view : FileView) : FileCall → (UInt32 × List UInt8) × Nat
  | .seek pos whence =>
    let off : Int := match whence with
      | 0 => pos
      | 1 => view.off + pos
      | 2 => (view.fileSize.toNat + pos) % 2 ^ 32
      | _ => -1
    if off < 0 ∨ view.fileSize.toNat < off then
      ((-1, []), view.off)
    else
      ((.ofNat off.toNat, []), off.toNat)
  | .read size =>
    if size < 0 ∨ cliMaxAllocation < size then
      ((-1, []), view.off)
    else
      match fmapReadn view.fmap view.off size.toNat with
      | none => ((-1, []), view.off)
      | some read => ((.ofNat read.length, read), view.off + read.length)
  | .fileFind data => ((find view.fmap view.off data, []), view.off)

/-- What some calls return, and the position behind them. -/
def run : List FileCall → FileView → List (UInt32 × List UInt8) × Nat
  | [], view => ([], view.off)
  | first :: rest, view =>
    let (result, off) := view.call find first
    let (results, last) := run rest { view with off }
    (result :: results, last)

/-- A seek to the end returns the size of the view. -/
theorem run_seek_end (view : FileView) : (view.run find [.seek 0 2]).1 = [(view.fileSize, [])] := by
  have small : (view.fileSize.toNat : Int) % 4294967296 = view.fileSize.toNat := by
    have := view.fileSize.toNat_lt
    omega
  simp [run, call, small, Int.not_lt.mpr (Int.natCast_nonneg _)]

/--
Switched to the extracted file and back, after any calls there, the calls return what
they return of the file if and only if the extracted file is empty or has its size.
-/
theorem inputSwitch_restores_iff
    (view : FileView)
    (saved : Fmap)
    (extracted : List UInt8)
    (between : List FileCall) :
    let there := (inputSwitch extracted true ⟨view, saved, false⟩).2
    let back := (inputSwitch extracted false { there with off := (there.run find between).2 }).2
    (∀ calls, (back.run find calls).1 = ({ view with off := back.off }.run find calls).1) ↔
      extracted = [] ∨ .ofNat extracted.length = view.fileSize := by
  by_cases empty : extracted = []
  · simp [inputSwitch, empty]
  · simp only [inputSwitch, empty, contextSetfile]
    constructor
    · intro same
      have sameEnd := same [.seek 0 2]
      rw [run_seek_end, run_seek_end] at sameEnd
      simpa using sameEnd
    · rintro (never | sameSize)
      · cases never
      · simp [sameSize]

/-- Behind an extracted file of one byte, a file of two bytes cannot be sought to its end. -/
theorem inputSwitch_keeps_size :
    let view : FileView := ⟨2, 0, ⟨[1, 2], 0⟩⟩
    let back := (inputSwitch [3] false (inputSwitch [3] true ⟨view, view.fmap, false⟩).2).2
    (view.call (fun _ _ _ => 0) (.seek 2 0)).1 = (2, []) ∧
      (back.call (fun _ _ _ => 0) (.seek 2 0)).1 = (-1, []) := by
  decide

end FileView

end LibClamav.Bytecode
