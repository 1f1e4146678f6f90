import LibClamav.AcPattern

namespace LibClamav.Script

/-!
# Normalised scripts

`cli_scanscript` normalises a file page by page into a buffer, scans the buffer when the
next page may not fit, and keeps the last `maxpatlen` bytes of it.
-/

/-- `enum normalize_action` -/
inductive NormalizeAction where
  | copy
  | skip
  | asWhitespace
  | add32
  deriving Repr, DecidableEq

/-- The table `char_action`. -/
def charAction (c : UInt8) : NormalizeAction :=
  if c = 0x20 ∨ 0x09 ≤ c ∧ c ≤ 0x0d then .asWhitespace
  else if 0x41 ≤ c ∧ c ≤ 0x5a then .add32
  else if 0x21 ≤ c ∧ c ≤ 0x7f then .copy
  else .skip

/-- `struct text_norm_state`; `out_len` is the length of `out`. -/
structure TextNormState where
  out : List UInt8
  outPos : Nat
  spaceWritten : Bool
  deriving Repr, DecidableEq

/-- `text_normalize_init` -/
def textNormalizeInit (out : List UInt8) : TextNormState := ⟨out, 0, false⟩

/-- `text_normalize_reset` -/
def textNormalizeReset (state : TextNormState) : TextNormState :=
  { state with outPos := 0, spaceWritten := false }

/-- `*p++ = c` -/
def TextNormState.put (state : TextNormState) (c : UInt8) : TextNormState :=
  { state with out := state.out.set state.outPos c, outPos := state.outPos + 1 }

/-- The body of the loop of `text_normalize_buffer`. -/
def normalizeByte (state : TextNormState) (c : UInt8) : TextNormState :=
  match charAction c with
  | .skip => state
  | .asWhitespace =>
    let state := if state.spaceWritten then state else state.put 0x20
    { state with spaceWritten := true }
  | .add32 => { state with spaceWritten := false }.put (c + 32)
  | .copy => { state with spaceWritten := false }.put c

/-- `text_normalize_buffer`, which stops where the buffer is full. -/
def textNormalizeBuffer (state : TextNormState) : List UInt8 → TextNormState
  | [] => state
  | c :: buf =>
    if state.outPos < state.out.length then
      textNormalizeBuffer (normalizeByte state c) buf
    else
      state

/-- What one call makes of a whole file. -/
def normalized (file : List UInt8) : List UInt8 :=
  let state := textNormalizeBuffer (textNormalizeInit (List.replicate file.length 0)) file
  state.out.take state.outPos

/-- The bytes of a call of `cli_scanbuff` and their offset. -/
structure Flush where
  bytes : List UInt8
  offset : Nat
  deriving Repr, DecidableEq

/-- The bytes that are kept for the next flush, where there are enough of them. -/
def carryOver (maxpatlen : Nat) (state : TextNormState) : TextNormState :=
  let out :=
    if maxpatlen < state.outPos then
      (state.out.drop (state.outPos - maxpatlen)).take maxpatlen ++ state.out.drop maxpatlen
    else
      state.out
  { textNormalizeReset { state with out := out } with outPos := maxpatlen }

/--
The loop of `cli_scanscript`: what is scanned.  `virus` are the flushes in which
`cli_scanbuff` finds something.
-/
def scanLoop
    (virus : Flush → Bool)
    (pgsz maxpatlen : Nat)
    (state : TextNormState)
    (offset : Nat)
    (rest : List UInt8) :
    List Flush :=
  let len := min pgsz rest.length
  let page := rest.take len
  let flush : Flush := ⟨state.out.take state.outPos, offset⟩
  if len = 0 then
    [flush]
  else if state.out.length < state.outPos + len then
    if virus flush then
      [flush]
    else
      flush :: scanLoop virus pgsz maxpatlen (textNormalizeBuffer (carryOver maxpatlen state) page)
        ((offset + state.outPos) % 2 ^ 32) (rest.drop len)
  else
    scanLoop virus pgsz maxpatlen (textNormalizeBuffer state page) offset (rest.drop len)
termination_by rest.length
decreasing_by
  all_goals
    rw [List.length_drop]
    omega

/-- `cli_scanscript`; the buffer is not cleared when it is allocated. -/
def cliScanscript
    (virus : Flush → Bool)
    (pgsz maxpatlen : Nat)
    (garbage : Nat → UInt8)
    (file : List UInt8) :
    List Flush :=
  if 5242880 < file.length then
    []
  else
    let buffer := (List.range (Ac.scanBuff + maxpatlen)).map garbage
    scanLoop virus pgsz maxpatlen (textNormalizeInit buffer) 0 file

end LibClamav.Script
