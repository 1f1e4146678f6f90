import Mathlib.Data.List.Basic
import Mathlib.Algebra.Ring.Nat

namespace LibClamav.Shell

open List Option
open Nat (le_add_right le_succ)

/-!
# Tokens of a shell

Token recognition and quote removal of a POSIX shell, for command lines in which nothing
is expanded.  A lexer goes over the bytes of a line; it stops at a backquote and at a
dollar sign, which begins an expansion or has a meaning the standard leaves open.
-/

abbrev quote : UInt8 := 0x22
abbrev apostrophe : UInt8 := 0x27
abbrev backslash : UInt8 := 0x5c
abbrev dollar : UInt8 := 0x24
abbrev backquote : UInt8 := 0x60
abbrev hash : UInt8 := 0x23
abbrev newline : UInt8 := 0x0a

/-- A word without its quoting characters, or an operator. -/
inductive Token where
  | word (bytes : List UInt8)
  | operator (bytes : List UInt8)
  deriving Repr, DecidableEq

/-- What the next byte is taken for. -/
inductive Mode where
  | plain
  | escaped
  | single
  | double
  | doubleEscaped
  | comment
  deriving Repr, DecidableEq

/-- The finished tokens and the one that is read. -/
structure Lexer where
  mode : Mode
  current : Option Token
  done : List Token
  deriving Repr, DecidableEq

def isBlank (c : UInt8) : Bool := c = 0x20 ∨ c = 0x09

/-- The characters `&`, `|`, `;`, `<`, `>`, `(` and `)`. -/
def operatorBytes : List UInt8 := [0x26, 0x7c, 0x3b, 0x3c, 0x3e, 0x28, 0x29]

/-- Operators of more than one character. -/
def longOperators : List (List UInt8) :=
  [[0x26, 0x26], [0x7c, 0x7c], [0x3b, 0x3b], [0x3c, 0x3c], [0x3e, 0x3e], [0x3c, 0x26],
    [0x3e, 0x26], [0x3c, 0x3e], [0x3c, 0x3c, 0x2d], [0x3e, 0x7c]]

/-- What a backslash escapes in double quotes, apart from a newline. -/
def escapable : List UInt8 := [dollar, backquote, quote, backslash]

/-- The token that is read ends. -/
def Lexer.delimit (lexer : Lexer) : Lexer :=
  { lexer with current := none, done := lexer.done ++ lexer.current.toList }

/-- Bytes are added to the word that is read, or to a new one. -/
def Lexer.add (lexer : Lexer) (bytes : List UInt8) : Lexer :=
  match lexer.current with
  | some (.word word) => { lexer with current := some (.word (word ++ bytes)) }
  | _ => { lexer.delimit with current := some (.word bytes) }

def Lexer.operator (lexer : Lexer) (c : UInt8) : Lexer :=
  { lexer.delimit with current := some (.operator [c]) }

def Lexer.inWord (lexer : Lexer) : Bool :=
  match lexer.current with
  | some (.word _) => true
  | _ => false

/-- An operator is made longer where this is an operator. -/
def Lexer.extends (lexer : Lexer) (c : UInt8) : Option Lexer :=
  match lexer.current with
  | some (.operator bytes) =>
    if bytes ++ [c] ∈ longOperators then
      some { lexer with current := some (.operator (bytes ++ [c])) }
    else
      none
  | _ => none

/-- A byte outside of quotes. -/
def plainByte (lexer : Lexer) (c : UInt8) : Option Lexer :=
  let lexer := { lexer with mode := .plain }
  match lexer.extends c with
  | some longer => some longer
  | none =>
    if c = backslash then some { lexer with mode := .escaped }
    else if c = apostrophe then some { lexer.add [] with mode := .single }
    else if c = quote then some { lexer.add [] with mode := .double }
    else if c = dollar ∨ c = backquote then none
    else if isBlank c then some lexer.delimit
    else if c = newline ∨ c ∈ operatorBytes then some (lexer.operator c)
    else if c = hash ∧ ¬ lexer.inWord then some { lexer.delimit with mode := .comment }
    else some (lexer.add [c])

/-- A byte in double quotes. -/
def doubleByte (lexer : Lexer) (c : UInt8) : Option Lexer :=
  let lexer := { lexer with mode := .double }
  if c = quote then some { lexer with mode := .plain }
  else if c = backslash then some { lexer with mode := .doubleEscaped }
  else if c = dollar ∨ c = backquote then none
  else some (lexer.add [c])

def step (lexer : Lexer) (c : UInt8) : Option Lexer :=
  match lexer.mode with
  | .plain => plainByte lexer c
  | .escaped =>
    let lexer := { lexer with mode := .plain }
    some (if c = newline then lexer else lexer.add [c])
  | .single =>
    some (if c = apostrophe then { lexer with mode := .plain } else lexer.add [c])
  | .double => doubleByte lexer c
  | .doubleEscaped =>
    let lexer := { lexer with mode := .double }
    some (if c ∈ escapable then lexer.add [c]
      else if c = newline then lexer
      else lexer.add [backslash, c])
  | .comment =>
    some (if c = newline then { lexer.operator c with mode := .plain } else lexer)

def run (lexer : Lexer) (line : List UInt8) : Option Lexer := line.foldlM step lexer

/-- The end of a line; quotes must be closed. -/
def finish (lexer : Lexer) : Option (List Token) :=
  match lexer.mode with
  | .plain | .comment => some lexer.delimit.done
  | .escaped => some (lexer.add [backslash]).delimit.done
  | _ => none

/-- The tokens of a line; `none` if it is not closed or something in it may be expanded. -/
def tokens (line : List UInt8) : Option (List Token) := run ⟨.plain, none, []⟩ line >>= finish

variable (line : List UInt8)

/-- A line is read in parts. -/
theorem run_append
    (later : List UInt8)
    (lexer : Lexer) :
    run lexer (line ++ later) = run lexer line >>= fun lexer => run lexer later :=
  foldlM_append

theorem run_cons
    (c : UInt8)
    (line : List UInt8)
    (lexer : Lexer) :
    run lexer (c :: line) = step lexer c >>= fun lexer => run lexer line :=
  foldlM_cons

/-- A byte that has no special meaning outside of quotes or in double quotes. -/
def isOrdinary (c : UInt8) : Bool :=
  c ∉ [quote, apostrophe, backslash, dollar, backquote, hash, newline] ∧ ¬ isBlank c ∧
    c ∉ operatorBytes

/-- An ordinary byte is added to the word. -/
theorem step_ordinary
    {current : Option Token}
    {done : List Token}
    {c : UInt8}
    (ordinary : isOrdinary c = true)
    (notLonger : (⟨.plain, current, done⟩ : Lexer).extends c = none) :
    step ⟨.plain, current, done⟩ c = some ((⟨.plain, current, done⟩ : Lexer).add [c]) := by
  simp only [isOrdinary, mem_cons, not_mem_nil, or_false, not_or, decide_eq_true_eq] at ordinary
  obtain ⟨⟨noQuote, noApostrophe, noBackslash, noDollar, noBackquote, noHash, noNewline⟩,
    notBlank, notOperator⟩ := ordinary
  rw [step]
  rw [plainByte, notLonger]
  dsimp only
  rw [if_neg noBackslash, if_neg noApostrophe, if_neg noQuote,
    if_neg (not_or.mpr ⟨noDollar, noBackquote⟩), if_neg notBlank,
    if_neg (not_or.mpr ⟨noNewline, notOperator⟩),
    if_neg fun isHash => noHash isHash.1]

/-- So are ordinary bytes. -/
theorem run_ordinary
    {done : List Token}
    (bytes : List UInt8)
    {word : List UInt8}
    (ordinary : ∀ c ∈ bytes, isOrdinary c = true) :
    run ⟨.plain, some (.word word), done⟩ bytes =
      some ⟨.plain, some (.word (word ++ bytes)), done⟩ := by
  induction bytes generalizing word with
  | nil =>
    rw [append_nil]
    rfl
  | cons c bytes ih =>
    rw [run_cons, step_ordinary (ordinary c mem_cons_self) rfl]
    have further := @ih (word ++ [c])
      fun other isOther => ordinary other (mem_cons_of_mem _ isOther)
    rw [append_assoc, singleton_append] at further
    exact further

section

/-- How many bytes of words there are. -/
def weigh (tokens : List Token) : Nat := (tokens.map fun
    | .word bytes => bytes.length
    | .operator _ => 0).sum

theorem weigh_append
    (tokens later : List Token) :
    weigh (tokens ++ later) = weigh tokens + weigh later := by
  rw [weigh, weigh, weigh, map_append, sum_append]

def Lexer.words (lexer : Lexer) : Nat := weigh (lexer.done ++ lexer.current.toList)

/-- A byte that is read but not added to a word yet. -/
def Mode.pending : Mode → Nat
  | .escaped | .doubleEscaped => 1
  | _ => 0

/-- The bytes that are in words or may still get there. -/
def Lexer.weight (lexer : Lexer) : Nat := lexer.words + lexer.mode.pending

theorem words_delimit (lexer : Lexer) : lexer.delimit.words = lexer.words := by
  rw [Lexer.words, Lexer.delimit, toList_none, append_nil, Lexer.words]

theorem words_add
    (lexer : Lexer)
    (bytes : List UInt8) :
    (lexer.add bytes).words = lexer.words + bytes.length := by
  obtain ⟨mode, current, done⟩ := lexer
  rcases current with _ | word | operator
  · simp [Lexer.add, Lexer.words, Lexer.delimit, weigh]
  · simp [Lexer.add, Lexer.words, weigh, add_assoc]
  · simp [Lexer.add, Lexer.words, Lexer.delimit, weigh]

theorem words_operator
    (lexer : Lexer)
    (c : UInt8) :
    (lexer.operator c).words = lexer.words := by
  simp [Lexer.operator, Lexer.words, Lexer.delimit, weigh]

variable {lexer next : Lexer} {c : UInt8}

theorem words_extends
    {longer : Lexer}
    (isLonger : lexer.extends c = some longer) :
    longer.words = lexer.words ∧ longer.mode = lexer.mode := by
  obtain ⟨mode, current, done⟩ := lexer
  rcases current with _ | word | operator
  · cases isLonger
  · cases isLonger
  rw [Lexer.extends] at isLonger
  dsimp only at isLonger
  split at isLonger
  · cases isLonger
    exact ⟨by simp [Lexer.words, weigh], rfl⟩
  · cases isLonger

theorem mode_add
    (lexer : Lexer)
    (bytes : List UInt8) :
    (lexer.add bytes).mode = lexer.mode := by
  rw [Lexer.add]
  split
  · rfl
  · rfl

theorem words_mode
    (lexer : Lexer)
    (mode : Mode) :
    ({ lexer with mode := mode } : Lexer).words = lexer.words :=
  rfl

theorem plainByte_words
    (isNext : plainByte lexer c = some next) :
    next.weight ≤ lexer.words + 1 := by
  rw [plainByte] at isNext
  cases isLonger : ({ lexer with mode := .plain } : Lexer).extends c with
  | some longer =>
    rw [isLonger] at isNext
    obtain ⟨isWords, isMode⟩ := words_extends isLonger
    cases isNext
    rw [Lexer.weight, isWords, isMode]
    exact le_succ _
  | none =>
    rw [isLonger] at isNext
    dsimp only at isNext
    split_ifs at isNext
    all_goals cases isNext
    · exact le_rfl
    · rw [Lexer.weight, words_mode, words_add]
      exact le_succ _
    · rw [Lexer.weight, words_mode, words_add]
      exact le_succ _
    · rw [Lexer.weight, words_delimit]
      exact le_succ _
    · rw [Lexer.weight, words_operator]
      exact le_succ _
    · rw [Lexer.weight, words_mode, words_delimit]
      exact le_succ _
    · rw [Lexer.weight, words_add, mode_add]
      exact le_rfl

theorem doubleByte_words
    (isNext : doubleByte lexer c = some next) :
    next.weight ≤ lexer.words + 1 := by
  rw [doubleByte] at isNext
  split_ifs at isNext
  all_goals cases isNext
  · exact le_succ _
  · exact le_rfl
  · rw [Lexer.weight, words_add, mode_add]
    exact le_rfl

/-- A byte adds at most one to the words. -/
theorem step_weight (isNext : step lexer c = some next) : next.weight ≤ lexer.weight + 1 := by
  obtain ⟨mode, current, done⟩ := lexer
  cases mode with
  | plain => exact plainByte_words isNext
  | double => exact doubleByte_words isNext
  | escaped =>
    cases isNext
    split
    · exact le_add_right _ 2
    · rw [Lexer.weight, words_add, mode_add]
      exact le_succ _
  | single =>
    cases isNext
    split
    · exact le_succ _
    · rw [Lexer.weight, words_add, mode_add]
      exact le_rfl
  | doubleEscaped =>
    cases isNext
    split
    · rw [Lexer.weight, words_add, mode_add]
      exact le_succ _
    split
    · exact le_add_right _ 2
    · rw [Lexer.weight, words_add, mode_add]
      exact le_rfl
  | comment =>
    cases isNext
    split
    · rw [Lexer.weight, words_mode, words_operator]
      exact le_succ _
    · exact le_succ _

/-- A line adds at most its length. -/
theorem run_weight
    {lexer next : Lexer}
    (isNext : run lexer line = some next) :
    next.weight ≤ lexer.weight + line.length := by
  induction line generalizing lexer next with
  | nil =>
    cases isNext
    exact le_rfl
  | cons c line ih =>
    rw [run_cons] at isNext
    obtain ⟨middle, isStep, isRun⟩ := bind_eq_some_iff.mp isNext
    have isLe := step_weight isStep
    have further := ih isRun
    rw [length_cons]
    omega

/-- The end of a line adds nothing. -/
theorem finish_weight
    {tokens : List Token}
    (isFinished : finish lexer = some tokens) :
    weigh tokens ≤ lexer.weight := by
  have weighDone (lexer : Lexer) : weigh lexer.delimit.done = lexer.words := rfl
  obtain ⟨mode, current, done⟩ := lexer
  cases mode with
  | plain | comment =>
    cases isFinished
    exact le_rfl
  | escaped =>
    cases isFinished
    rw [weighDone, words_add]
    exact le_rfl
  | single | double | doubleEscaped => cases isFinished

end

section

/--
A text that double quotes keep: it does not end them, nothing in it can be expanded, and no
backslash in it escapes anything.
-/
def Keepable : List UInt8 → Prop
  | [] => True
  | c :: text =>
    c ≠ quote ∧ c ≠ backquote ∧ c ≠ dollar ∧
    (c = backslash → ∃ d ∈ text.head?, d ∉ escapable ∧ d ≠ newline) ∧
    Keepable text

instance decidableKeepable : (text : List UInt8) → Decidable (Keepable text)
  | [] => isTrue trivial
  | c :: text =>
    have := decidableKeepable text
    inferInstanceAs (Decidable (c ≠ quote ∧ c ≠ backquote ∧ c ≠ dollar ∧
      (c = backslash → ∃ d ∈ text.head?, d ∉ escapable ∧ d ≠ newline) ∧ Keepable text))

variable {done : List Token} {word : List UInt8}

variable {c : UInt8} (text : List UInt8)

/-- A byte between quotes is added to the word. -/
theorem step_double_other
    (notSpecial : c ∉ escapable) :
    step ⟨.double, some (.word word), done⟩ c =
      some ⟨.double, some (.word (word ++ [c])), done⟩ := by
  simp only [escapable, mem_cons, not_mem_nil, or_false, not_or] at notSpecial
  obtain ⟨noDollar, noBackquote, noQuote, noBackslash⟩ := notSpecial
  rw [step]
  rw [doubleByte, if_neg noQuote, if_neg noBackslash, if_neg (not_or.mpr ⟨noDollar, noBackquote⟩)]
  rfl

theorem step_doubleEscaped
    (notSpecial : c ∉ escapable)
    (notNewline : c ≠ newline) :
    step ⟨.doubleEscaped, some (.word word), done⟩ c =
      step ⟨.double, some (.word (word ++ [backslash])), done⟩ c := by
  rw [step_double_other notSpecial, step]
  dsimp only
  rw [if_neg notSpecial, if_neg notNewline, append_assoc]
  rfl

theorem step_double_quote : step ⟨.double, some (.word word), done⟩ quote =
      some ⟨.plain, some (.word word), done⟩ :=
  rfl

/-- A text that may stand between quotes is kept. -/
theorem run_keepable
    {later : List UInt8}
    {word : List UInt8}
    (keepable : Keepable text) :
    run ⟨.double, some (.word word), done⟩ (text ++ quote :: later) =
      run ⟨.plain, some (.word (word ++ text)), done⟩ later := by
  induction text generalizing word with
  | nil =>
    rw [nil_append, run_cons, step_double_quote, append_nil]
    rfl
  | cons c text ih =>
    obtain ⟨notQuote, notBackquote, notDollar, escapesNothing, keepable⟩ := keepable
    have further := @ih (word ++ [c]) keepable
    rw [append_assoc, singleton_append] at further
    rw [cons_append, run_cons, ← further]
    by_cases isBackslash : c = backslash
    · subst isBackslash
      change run ⟨.doubleEscaped, some (.word word), done⟩ (text ++ quote :: later) = _
      obtain ⟨d, isHead, notSpecial, notNewline⟩ := escapesNothing rfl
      cases text with
      | nil => cases isHead
      | cons d' text =>
        cases isHead
        rw [cons_append, run_cons, run_cons, step_doubleEscaped notSpecial notNewline]
    have notSpecial : c ∉ escapable := by
      simp [escapable, notDollar, notBackquote, notQuote, isBackslash]
    rw [step_double_other notSpecial]
    rfl

/-- Any other text loses a byte. -/
theorem run_not_keepable : ∀ {word : List UInt8} {next : Lexer}, ¬ Keepable text →
      run ⟨.double, some (.word word), done⟩ text = some next →
        next.weight + 1 ≤ (⟨.double, some (.word word), done⟩ : Lexer).weight + text.length ∨
          next.mode = .doubleEscaped := by
  induction text with
  | nil => exact fun notKeepable _ => absurd trivial notKeepable
  | cons c text ih =>
    intro word next notKeepable isRun
    have weightCons (c : UInt8) : (⟨.double, some (.word (word ++ [c])), done⟩ : Lexer).weight =
          (⟨.double, some (.word word), done⟩ : Lexer).weight + 1 :=
      words_add ⟨.double, some (.word word), done⟩ [c]
    have further := @ih (word ++ [c]) next
    rw [weightCons, add_assoc, add_comm 1] at further
    rw [length_cons]
    rw [run_cons] at isRun
    by_cases isQuote : c = quote
    · subst isQuote
      rw [step_double_quote] at isRun
      left
      have isLe := run_weight text isRun
      exact Nat.succ_le_succ isLe
    by_cases isBackquote : c = backquote
    · subst isBackquote
      cases isRun
    by_cases isDollar : c = dollar
    · subst isDollar
      cases isRun
    by_cases isBackslash : c = backslash
    · subst isBackslash
      change run ⟨.doubleEscaped, some (.word word), done⟩ text = some next at isRun
      cases text with
      | nil =>
        cases isRun
        exact .inr rfl
      | cons d text =>
        rw [run_cons] at isRun
        by_cases isSpecial : d ∈ escapable
        · have isStep : step ⟨.doubleEscaped, some (.word word), done⟩ d =
              some ⟨.double, some (.word (word ++ [d])), done⟩ := by
            rw [step]
            dsimp only
            rw [if_pos isSpecial]
            rfl
          rw [isStep] at isRun
          have isLe := run_weight text isRun
          rw [weightCons] at isLe
          rw [length_cons]
          omega
        by_cases isNewline : d = newline
        · subst isNewline
          have isStep : step ⟨.doubleEscaped, some (.word word), done⟩ newline =
              some ⟨.double, some (.word word), done⟩ := rfl
          rw [isStep] at isRun
          have isLe := run_weight text isRun
          rw [length_cons]
          omega
        rw [step_doubleEscaped isSpecial isNewline, ← run_cons] at isRun
        apply further _ isRun
        intro keepable
        exact notKeepable ⟨by decide, by decide, by decide,
          fun _ => ⟨d, rfl, isSpecial, isNewline⟩, keepable⟩
    have notSpecial : c ∉ escapable := by
      simp [escapable, isDollar, isBackquote, isQuote, isBackslash]
    rw [step_double_other notSpecial] at isRun
    apply further _ isRun
    intro keepable
    exact notKeepable ⟨isQuote, isBackquote, isDollar,
      fun isBackslash' => absurd isBackslash' isBackslash, keepable⟩

end

/-- Neither a quoting character nor the start of a comment, nor a newline. -/
def isUnquoted (c : UInt8) : Bool :=
  c ∉ [quote, apostrophe, backslash, dollar, backquote, hash, newline]

/-- The bytes of a line that are in words if nothing is quoted. -/
def plainWeight (line : List UInt8) : Nat := line.countP isOrdinary

/-- The rest of a line behind a word, and the tokens in it. -/
structure Tail (line : List UInt8) (tokens : List Token) : Prop where
  unquoted : ∀ c ∈ line, isUnquoted c = true
  reads : ∀ (word : List UInt8) (done : List Token),
    (run ⟨.plain, some (.word word), done⟩ line >>= finish) = some (done ++ .word word :: tokens)
  weighs : weigh tokens = plainWeight line
  notEmpty : 0 < plainWeight line

theorem special_ne
    {c : UInt8}
    (unquoted : isUnquoted c = true) :
    c ≠ quote ∧ c ≠ apostrophe ∧
      c ≠ backslash ∧ c ≠ dollar ∧ c ≠ backquote ∧ c ≠ hash ∧ c ≠ newline := by
  simpa [isUnquoted] using unquoted

/-- A line with an open quote is not finished. -/
theorem run_open
    {lexer next : Lexer}
    (isOpen : lexer.mode = .double ∨ lexer.mode = .single)
    (unquoted : ∀ c ∈ line, isUnquoted c = true)
    (isRun : run lexer line = some next) :
    finish next = none := by
  induction line generalizing lexer next with
  | nil =>
    cases isRun
    rcases isOpen with isDouble | isSingle
    · rw [finish, isDouble]
    · rw [finish, isSingle]
  | cons c line ih =>
    obtain ⟨noQuote, noApostrophe, noBackslash, noDollar, noBackquote, -⟩ :=
      special_ne (unquoted c mem_cons_self)
    rw [run_cons] at isRun
    obtain ⟨middle, isStep, isRun⟩ := bind_eq_some_iff.mp isRun
    refine ih ?_ (fun other isOther => unquoted other (mem_cons_of_mem _ isOther)) isRun
    rcases isOpen with isDouble | isSingle
    · left
      simp only [step, isDouble, doubleByte, if_neg noQuote, if_neg noBackslash,
        if_neg (not_or.mpr ⟨noDollar, noBackquote⟩)] at isStep
      cases isStep
      exact mode_add _ _
    right
    simp only [step, isSingle, if_neg noApostrophe] at isStep
    cases isStep
    exact (mode_add _ _).trans isSingle

/-- A comment reads on to its end. -/
theorem run_comment
    {lexer next : Lexer}
    (isComment : lexer.mode = .comment)
    (unquoted : ∀ c ∈ line, isUnquoted c = true)
    (isRun : run lexer line = some next) :
    next = lexer := by
  induction line generalizing lexer next with
  | nil =>
    cases isRun
    rfl
  | cons c line ih =>
    obtain ⟨-, -, -, -, -, -, noNewline⟩ := special_ne (unquoted c mem_cons_self)
    rw [run_cons] at isRun
    have isStep : step lexer c = some lexer := by simp only [step, isComment, if_neg noNewline]
    rw [isStep] at isRun
    exact ih isComment (fun other isOther => unquoted other (mem_cons_of_mem _ isOther)) isRun

/-- Bytes that are not quoted leave the mode. -/
theorem run_plain
    {lexer next : Lexer}
    (isPlain : lexer.mode = .plain)
    (unquoted : ∀ c ∈ line, isUnquoted c = true)
    (isRun : run lexer line = some next) :
    next.mode = .plain ∧ next.words ≤ lexer.words + plainWeight line := by
  induction line generalizing lexer next with
  | nil =>
    cases isRun
    exact ⟨isPlain, le_rfl⟩
  | cons c line ih =>
    obtain ⟨noQuote, noApostrophe, noBackslash, noDollar, noBackquote, noHash, noNewline⟩ :=
      special_ne (unquoted c mem_cons_self)
    rw [run_cons] at isRun
    obtain ⟨middle, isStep, isRun⟩ := bind_eq_some_iff.mp isRun
    have isMiddle : middle.mode = .plain ∧
        middle.words ≤ lexer.words + if isOrdinary c then 1 else 0 := by
      rw [step, isPlain] at isStep
      rw [plainByte] at isStep
      dsimp only at isStep
      cases isLonger : ({ lexer with mode := .plain } : Lexer).extends c with
      | some longer =>
        rw [isLonger] at isStep
        obtain ⟨isWords, isMode⟩ := words_extends isLonger
        cases isStep
        exact ⟨isMode, isWords ▸ le_add_right _ _⟩
      | none =>
        rw [isLonger] at isStep
        rw [if_neg noBackslash, if_neg noApostrophe, if_neg noQuote,
          if_neg (not_or.mpr ⟨noDollar, noBackquote⟩)] at isStep
        by_cases isBlank : Shell.isBlank c = true
        · rw [if_pos isBlank] at isStep
          cases isStep
          exact ⟨rfl, le_trans (le_of_eq (words_delimit _)) (le_add_right _ _)⟩
        by_cases isOperator : c = newline ∨ c ∈ operatorBytes
        · rw [if_neg isBlank, if_pos isOperator] at isStep
          cases isStep
          exact ⟨rfl, le_trans (le_of_eq (words_operator _ c)) (le_add_right _ _)⟩
        have isOrdinary : Shell.isOrdinary c = true := by
          simp [Shell.isOrdinary, noQuote, noApostrophe, noBackslash, noDollar,
            noBackquote, noHash, noNewline, isBlank, (not_or.mp isOperator).2]
        rw [if_neg isBlank, if_neg isOperator, if_neg fun isHash => noHash isHash.1] at isStep
        cases isStep
        rw [if_pos isOrdinary]
        exact ⟨mode_add _ _, le_of_eq (words_add _ [c])⟩
    obtain ⟨isNextPlain, isLe⟩ := ih isMiddle.1
      (fun other isOther => unquoted other (mem_cons_of_mem _ isOther)) isRun
    refine ⟨isNextPlain, ?_⟩
    rw [plainWeight, countP_cons, ← plainWeight]
    omega

/-- A quote closes or opens. -/
theorem step_quote
    {lexer next : Lexer}
    (isStep : step lexer quote = some next) :
    lexer.mode ≠ .doubleEscaped ∧ (next.mode = .plain ∨ next.mode = .comment) ∧
        next.words ≤ lexer.weight ∨
      next.mode = .double ∨ next.mode = .single := by
  have opens (lexer next : Lexer) (isStep : plainByte lexer quote = some next) :
      next.mode = .double := by
    rw [plainByte] at isStep
    have notLonger : ({ lexer with mode := .plain } : Lexer).extends quote = none := by
      rw [Lexer.extends]
      split
      · have noQuote : ∀ bytes ∈ longOperators, quote ∉ bytes := by decide
        exact if_neg fun isLong => noQuote _ isLong (by simp)
      · rfl
    rw [notLonger] at isStep
    cases isStep
    rfl
  obtain ⟨mode, current, done⟩ := lexer
  cases mode with
  | plain => exact .inr (.inl (opens _ _ isStep))
  | single =>
    cases isStep
    exact .inr (.inr (mode_add _ _))
  | doubleEscaped =>
    cases isStep
    exact .inr (.inl (mode_add _ _))
  | double =>
    cases isStep
    exact .inl ⟨Mode.noConfusion, .inl rfl, le_rfl⟩
  | escaped =>
    cases isStep
    exact .inl ⟨Mode.noConfusion, .inl (mode_add _ _), le_of_eq (words_add _ [quote])⟩
  | comment =>
    cases isStep
    exact .inl ⟨Mode.noConfusion, .inr rfl, le_rfl⟩

/--
A text in double quotes, before the rest of a line, is read as a word that is the text
exactly if it can be kept.
-/
theorem quoted_iff
    {line : List UInt8}
    {tokens : List Token}
    (tail : Tail line tokens)
    (text : List UInt8)
    (done : List Token) :
    (run ⟨.plain, none, done⟩ (quote :: text ++ quote :: line) >>= finish) =
        some (done ++ .word text :: tokens) ↔ Keepable text := by
  have isStart (rest : List UInt8) :
      run ⟨.plain, none, done⟩ (quote :: rest) = run ⟨.double, some (.word []), done⟩ rest := by
    rw [run_cons]
    change run ⟨.double, some (.word []), done ++ []⟩ rest = _
    rw [append_nil]
  rw [cons_append, isStart]
  constructor
  · intro isRead
    by_contra notKeepable
    rw [run_append] at isRead
    obtain ⟨last, isRun, isFinished⟩ := bind_eq_some_iff.mp isRead
    obtain ⟨middle, isText, isRun⟩ := bind_eq_some_iff.mp isRun
    rw [run_cons] at isRun
    obtain ⟨closed, isStep, isRun⟩ := bind_eq_some_iff.mp isRun
    have isWeight := finish_weight isFinished
    rw [← singleton_append, weigh_append, weigh_append, tail.weighs] at isWeight
    have isWord : weigh [Token.word text] = text.length := by simp [weigh]
    have isEmptyWord : (⟨.double, some (.word []), done⟩ : Lexer).weight = weigh done := by
      simp [Lexer.weight, Lexer.words, weigh, Mode.pending]
    rcases step_quote isStep with ⟨notEscaped, isClosed, isLe⟩ | isOpen
    · have isLoss := (run_not_keepable text notKeepable isText).resolve_right notEscaped
      rcases isClosed with isPlain | isComment
      · obtain ⟨isLast, isLastLe⟩ := run_plain line isPlain tail.unquoted isRun
        rw [Lexer.weight, isLast, show Mode.plain.pending = 0 from rfl] at isWeight
        omega
      · have isLast := run_comment line isComment tail.unquoted isRun
        rw [isLast, Lexer.weight, isComment, show Mode.comment.pending = 0 from rfl] at isWeight
        omega
    · rw [run_open line isOpen tail.unquoted isRun] at isFinished
      cases isFinished
  · intro keepable
    rw [run_keepable text keepable, nil_append]
    exact tail.reads text done

end LibClamav.Shell
