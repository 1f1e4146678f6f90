import Mathlib.Data.List.Basic
import Mathlib.Data.Nat.Basic
import Mathlib.Algebra.Group.Nat.Defs
import Mathlib.Algebra.Group.Int.Defs

namespace LibClamav.CText

open List

/-!
# C text primitives

A C string is the list of its characters before the terminating NUL, so that
reading at or past the end of the list yields the terminator.  The numeric
conversions follow `sscanf`: leading white space is skipped, a sign may come
first, and at least one decimal digit has to follow.
-/

variable {text rest : List Char} {index value : Nat} {c : Char}

/-- The character a C program reads at one index of a terminated string. -/
def charAt (text : List Char) (index : Nat) : Char := text.getD index '\x00'

theorem charAt_of_drop (remaining : text.drop index = c :: rest) : charAt text index = c := by
  have atHead : (text.drop index)[0]? = some c := by
    rw [remaining]
    rfl
  rw [getElem?_drop, add_zero] at atHead
  simp [charAt, getD_eq_getElem?_getD, atHead]

theorem charAt_of_drop_nil (remaining : text.drop index = []) : charAt text index = '\x00' := by
  have pastEnd : text.length ≤ index := drop_eq_nil_iff.mp remaining
  simp [charAt, getD_eq_getElem?_getD, pastEnd]

theorem charAt_drop
    (text : List Char)
    (start index : Nat) :
    charAt (text.drop start) index = charAt text (start + index) := by
  simp [charAt, getD_eq_getElem?_getD, getElem?_drop]

/-- The six characters `isspace` accepts in the C locale. -/
def isSpace (c : Char) : Bool := c == ' ' || ('\t' ≤ c && c ≤ '\r')

/-- Decimal value of a run of digit characters. -/
def digitsValue (digits : List Char) : Nat :=
  digits.foldl (fun value c => value * 10 + (c.toNat - '0'.toNat)) 0

/-- Split an optional sign off a text; the flag tells whether it was a minus. -/
def splitSign : List Char → Bool × List Char
  | '-' :: rest => (true, rest)
  | '+' :: rest => (false, rest)
  | rest => (false, rest)

/--
One `%u` conversion into a 32-bit `unsigned int`.

The result is `none` both for a matching failure and for the end of input,
because every caller tests for the two together.  Out-of-range numbers and
negative ones are reduced modulo the width of the type.
-/
def scanUnsigned (text : List Char) : Option (Nat × List Char) :=
  let (negative, unsignedText) := splitSign (text.dropWhile isSpace)
  let digits := unsignedText.takeWhile Char.isDigit
  if digits.isEmpty then
    none
  else
    let value := digitsValue digits % 2 ^ 32
    some (
      if negative then (2 ^ 32 - value) % 2 ^ 32 else value,
      unsignedText.dropWhile Char.isDigit)

/-- A 32-bit unsigned value reinterpreted as a C `int`. -/
def toInt32 (value : Nat) : Int :=
  if value % 2 ^ 32 < 2 ^ 31 then
    (value % 2 ^ 32 : Nat)
  else
    (value % 2 ^ 32 : Nat) - 2 ^ 32

/-- A number that is read has 32 bits. -/
theorem scanUnsigned_lt (scanned : scanUnsigned text = some (value, rest)) : value < 2 ^ 32 := by
  unfold scanUnsigned at scanned
  simp only at scanned
  split at scanned
  · cases scanned
  · simp only [Option.some.injEq, Prod.mk.injEq] at scanned
    rw [← scanned.1]
    split <;> exact Nat.mod_lt _ (by decide)

theorem isDigit_not_isSpace (digit : c.isDigit = true) : isSpace c = false := by
  simp only [Char.isDigit, Bool.and_eq_true, decide_eq_true_eq,
    ge_iff_le, UInt32.le_iff_toNat_le] at digit
  have lower : 48 ≤ c.val.toNat := digit.1
  have notBlank : c ≠ ' ' := by
    rintro rfl
    exact absurd lower (by decide)
  have pastReturn : ¬ c ≤ '\r' := by
    rw [Char.le_def, UInt32.le_iff_toNat_le]
    intro atMost
    have : c.val.toNat ≤ 13 := atMost
    omega
  simp [isSpace, notBlank, pastReturn]

theorem splitSign_of_isDigit
    (digit : c.isDigit = true) :
    splitSign (c :: rest) = (false, c :: rest) := by
  unfold splitSign
  split <;> simp_all

/-- The digits are read up to the end. -/
theorem scanUnsigned_digits
    {digits : List Char}
    (nonempty : digits ≠ [])
    (allDigits : ∀ c ∈ digits, c.isDigit = true)
    (stops : ∀ c ∈ rest.head?, c.isDigit = false) :
    scanUnsigned (digits ++ rest) = some (digitsValue digits % 2 ^ 32, rest) := by
  obtain ⟨first, others, rfl⟩ := exists_cons_of_ne_nil nonempty
  have firstDigit : first.isDigit = true := allDigits first (by simp)
  have taken : (first :: others ++ rest).takeWhile Char.isDigit =
        first :: others := by
    rw [takeWhile_append_of_pos allDigits]
    cases rest with
    | nil => simp
    | cons c later => simp [stops c (by simp)]
  have dropped : (first :: others ++ rest).dropWhile Char.isDigit = rest := by
    rw [dropWhile_append_of_pos allDigits]
    cases rest with
    | nil => rfl
    | cons c later => simp [stops c (by simp)]
  have noSpace : (first :: others ++ rest).dropWhile isSpace =
        first :: others ++ rest := by
    simp [isDigit_not_isSpace firstDigit]
  have noSign : splitSign (first :: others ++ rest) = (false, first :: others ++ rest) :=
    splitSign_of_isDigit firstDigit
  unfold scanUnsigned
  rw [noSpace, noSign]
  simp only
  rw [taken, dropped]
  simp

theorem toInt32_of_lt (small : value < 2 ^ 31) : toInt32 value = value := by
  have reduced : value % 2 ^ 32 = value := Nat.mod_eq_of_lt (by omega)
  rw [toInt32, reduced, if_pos small]

theorem toInt32_lt (value : Nat) : toInt32 value < 2 ^ 31 := by
  unfold toInt32
  split <;> omega

end LibClamav.CText
