import LibClamav.CheckedBuffer

namespace LibClamav.Phish

open CheckedBuffer List Option

/-!
# Percent escapes

`str_hex_to_char` decodes the escapes of a text in place: a pass moves the rest
of the text over the last two characters of every escape, and passes are
repeated while one of them yields a `%`.
-/

variable {text : List UInt8} (fuel : Nat)

/-- `isxdigit` -/
def isxdigit (b : UInt8) : Bool :=
  (0x30 ≤ b && b ≤ 0x39) || (0x41 ≤ b && b ≤ 0x46) || (0x61 ≤ b && b ≤ 0x66)

/-- `hextable` -/
def hextable (b : UInt8) : UInt8 :=
  if 0x30 ≤ b ∧ b ≤ 0x39 then
    b - 0x30
  else if 0x41 ≤ b ∧ b ≤ 0x46 then
    b - 0x41 + 10
  else if 0x61 ≤ b ∧ b ≤ 0x66 then
    b - 0x61 + 10
  else
    0

/-- `hex2int`; `00` stands for 1. -/
def hex2int (high low : UInt8) : UInt8 :=
  if high = 0x30 ∧ low = 0x30 then
    1
  else
    hextable high <<< 4 ||| hextable low

/-- The byte for which the escape at `sbegin` stands, if there is one. -/
def escapeAt (buf : List UInt8) (sbegin : Nat) : Option (Option UInt8) := do
  if (← read buf sbegin) = 0x25 then
    let high ← read buf (sbegin + 1)
    if isxdigit high then
      let low ← read buf (sbegin + 2)
      if isxdigit low then
        return some (hex2int high low)
  return none

/-- One pass: the buffer, `str_end` and whether `firsthex` is set. -/
def hexPass : Nat → List UInt8 → Nat → Nat → Bool → Option (List UInt8 × Nat × Bool)
  | 0, _, _, _, _ => none
  | fuel + 1, buf, sbegin, strEnd, firsthex =>
    if sbegin + 3 ≤ strEnd then do
      match ← escapeAt buf sbegin with
      | some c =>
        let buf ← write buf sbegin c
        let src := sbegin + 3
        let buf ← move buf (sbegin + 1) src (strEnd + 1 - src)
        hexPass fuel buf (sbegin + 1) (strEnd - 2) (firsthex || c == 0x25)
      | none => hexPass fuel buf (sbegin + 1) strEnd firsthex
    else
      some (buf, strEnd, firsthex)

/-- The passes: the buffer and `str_end`. -/
def hexPasses : Nat → List UInt8 → Nat → Nat → Option (List UInt8 × Nat)
  | 0, _, _, _ => none
  | fuel + 1, buf, sbegin, strEnd => do
      let (buf, strEnd, firsthex) ←
        hexPass (strEnd + 1) buf sbegin strEnd false
      if firsthex then
        hexPasses fuel buf sbegin strEnd
      else
        some (buf, strEnd)

/-- `str_hex_to_char`: the buffer, `*begin` and `*end`. -/
def strHexToChar
    (buf : List UInt8)
    (sbegin strEnd : Nat) :
    Option (List UInt8 × Nat × Nat) := do
  if strEnd ≤ sbegin + 1 then
    return (buf, sbegin, strEnd)
  let (buf, sbegin) ←
    if (← read buf sbegin) = 0x25 then do
      let high ← read buf (sbegin + 1)
      let low ← read buf (sbegin + 2)
      let buf ← write buf (sbegin + 2) (hex2int high low)
      pure (buf, sbegin + 2)
    else
      pure (buf, sbegin)
  let (buf, strEnd) ← hexPasses (strEnd + 1) buf (sbegin + 1) strEnd
  return (buf, sbegin, strEnd)

/-- One pass over a text; an escape at its end has nothing behind it. -/
def unescape : List UInt8 → List UInt8
  | c :: high :: low :: next :: rest =>
    if c = 0x25 ∧ isxdigit high ∧ isxdigit low then
      hex2int high low :: unescape (next :: rest)
    else
      c :: unescape (high :: low :: next :: rest)
  | short => short

/-- A pass over a text decodes a `%`. -/
def makesPercent : List UInt8 → Bool
  | c :: high :: low :: next :: rest =>
    if c = 0x25 ∧ isxdigit high ∧ isxdigit low then
      hex2int high low == 0x25 || makesPercent (next :: rest)
    else
      makesPercent (high :: low :: next :: rest)
  | _ => false

theorem unescape_short
    (short : ∀ c high low next rest, text = c :: high :: low :: next :: rest → False) :
    unescape text = text := by
  rw [unescape]
  exact short

theorem makesPercent_short
    (short : ∀ c high low next rest, text = c :: high :: low :: next :: rest → False) :
    makesPercent text = false := by
  rw [makesPercent]
  exact short

theorem unescape_length_le (text : List UInt8) : (unescape text).length ≤ text.length := by
  fun_induction unescape text with
  | case1 c high low next rest _ ih | case2 c high low next rest _ ih =>
    simp only [length_cons] at ih ⊢
    omega
  | case3 => exact Nat.le_refl _

/-- A pass that makes a percent sign shortens the text. -/
theorem unescape_length_lt
    (makes : makesPercent text = true) :
    (unescape text).length < text.length := by
  fun_induction unescape text with
  | case1 c high low next rest =>
    have := unescape_length_le (next :: rest)
    simp only [length_cons] at this ⊢
    omega
  | case2 c high low next rest noEscape ih =>
    rw [makesPercent, if_neg noEscape] at makes
    have := ih makes
    simp only [length_cons] at this ⊢
    omega
  | case3 short isShort =>
    rw [makesPercent_short isShort] at makes
    cases makes

theorem escapeAt_append
    (front back : List UInt8)
    (c high low : UInt8) :
    escapeAt (front ++ c :: high :: low :: back) front.length =
      some (if c = 0x25 ∧ isxdigit high ∧ isxdigit low then
        some (hex2int high low) else none) := by
  have first : read (front ++ c :: high :: low :: back) front.length =
      some c := @read_append_right _ front _ 0
  have second : read (front ++ c :: high :: low :: back) (front.length + 1) =
      some high := read_append_right front _
  have third : read (front ++ c :: high :: low :: back) (front.length + 2) =
      some low := read_append_right front _
  unfold escapeAt
  split_ifs <;> simp_all

/-- One pass of the loop. -/
theorem hexPass_text
    (text : List UInt8)
    (fuel : Nat)
    (front back : List UInt8)
    (firsthex : Bool)
    (enough : text.length < fuel) :
    ∃ junk,
      (unescape text).length + junk.length = text.length ∧
        hexPass fuel (front ++ text ++ back) front.length
            (front.length + text.length - 1) firsthex =
          some (front ++ unescape text ++ (junk ++ back),
            front.length + (unescape text).length - 1,
            firsthex || makesPercent text) := by
  induction text using unescape.induct generalizing fuel front back firsthex with
  | case1 c high low next rest isEscape ih =>
    obtain ⟨fuel, rfl⟩ := Nat.exists_eq_add_one.mpr (by omega : 0 < fuel)
    obtain ⟨gap, gapLength, moved⟩ := move_append
      (front ++ [hex2int high low]) [high, low] (next :: rest) back
    obtain ⟨junk, lengths, passes⟩ := ih fuel (front ++ [hex2int high low]) (gap ++ back)
      (firsthex || hex2int high low == 0x25)
      (by simp only [length_cons] at enough ⊢; omega)
    refine ⟨junk ++ gap, ?_, ?_⟩
    · rw [unescape, if_pos isEscape]
      simp only [length_cons, length_append, gapLength, length_nil] at lengths ⊢
      omega
    have isBuffer : front ++ c :: high :: low :: next :: rest ++ back =
        front ++ c :: high :: low :: (next :: rest ++ back) := by
      simp
    have isMoved : move (front ++ hex2int high low :: high :: low :: (next :: rest ++ back))
        (front.length + 1) (front.length + 3) (rest.length + 1) =
          some (front ++ [hex2int high low] ++ (next :: rest) ++ (gap ++ back)) := by
      simpa [Nat.add_assoc] using moved
    have isRest : front.length + (rest.length + 1 + 1 + 1 + 1) - 1 + 1 -
        (front.length + 3) = rest.length + 1 := by
      omega
    have isEnd : front.length + (rest.length + 1 + 1 + 1 + 1) - 1 - 2 =
        (front ++ [hex2int high low]).length + (next :: rest).length - 1 := by
      simp only [length_append, length_cons, length_nil]
      omega
    have isBegin : front.length + 1 = (front ++ [hex2int high low]).length := by simp
    rw [hexPass, if_pos (by simp only [length_cons]; omega), isBuffer,
      escapeAt_append, if_pos isEscape]
    simp only [bind_eq_bind, bind_some, write_append, length_cons, isRest, isMoved]
    rw [isEnd, isBegin, passes, unescape, if_pos isEscape, makesPercent, if_pos isEscape]
    simp only [append_assoc, cons_append, nil_append,
      length_append, length_cons, length_nil, Bool.or_assoc]
    rw [show front.length + (0 + 1) + (unescape (next :: rest)).length =
      front.length + ((unescape (next :: rest)).length + 1) by omega]
  | case2 c high low next rest noEscape ih =>
    obtain ⟨fuel, rfl⟩ := Nat.exists_eq_add_one.mpr (by omega : 0 < fuel)
    obtain ⟨junk, lengths, passes⟩ := ih fuel (front ++ [c]) back firsthex
      (by simp only [length_cons] at enough ⊢; omega)
    refine ⟨junk, ?_, ?_⟩
    · rw [unescape, if_neg noEscape]
      simp only [length_cons] at lengths ⊢
      omega
    have isBuffer : front ++ c :: high :: low :: next :: rest ++ back =
        front ++ c :: high :: low :: (next :: rest ++ back) := by
      simp
    have isEnd : front.length + (rest.length + 1 + 1 + 1 + 1) - 1 =
        (front ++ [c]).length + (high :: low :: next :: rest).length - 1 := by
      simp only [length_append, length_cons, length_nil]
      omega
    have isFront : front ++ c :: high :: low :: (next :: rest ++ back) =
        front ++ [c] ++ (high :: low :: next :: rest) ++ back := by
      simp
    have isBegin : front.length + 1 = (front ++ [c]).length := by simp
    rw [hexPass, if_pos (by simp only [length_cons]; omega), isBuffer,
      escapeAt_append, if_neg noEscape]
    simp only [bind_eq_bind, bind_some, length_cons]
    rw [isEnd, isBegin, isFront, passes, unescape, if_neg noEscape, makesPercent, if_neg noEscape]
    simp only [append_assoc, cons_append, nil_append, length_append, length_cons, length_nil]
    rw [show front.length + (0 + 1) + (unescape (high :: low :: next :: rest)).length =
        front.length + ((unescape (high :: low :: next :: rest)).length + 1) by omega]
  | case3 short isShort =>
    obtain ⟨fuel, rfl⟩ := Nat.exists_eq_add_one.mpr (by omega : 0 < fuel)
    refine ⟨[], by rw [unescape_short isShort]; rfl, ?_⟩
    have few : short.length ≤ 3 := by
      rcases short with _ | ⟨c, _ | ⟨high, _ | ⟨low, _ | ⟨next, rest⟩⟩⟩⟩
      · exact Nat.zero_le _
      · exact Nat.le_add_left 1 2
      · exact Nat.le_add_left 2 1
      · exact Nat.le_refl 3
      · exact (isShort c high low next rest rfl).elim
    rw [hexPass, if_neg (by omega), unescape_short isShort,
      makesPercent_short isShort, Bool.or_false]
    rfl

/-- The text before the last pass, in which no escape stands for a `%`. -/
def settle : Nat → List UInt8 → List UInt8
  | 0, text => text
  | fuel + 1, text =>
    if makesPercent text then
      settle fuel (unescape text)
    else
      text

def lastPass (text : List UInt8) : List UInt8 := settle text.length text

theorem settle_eq_lastPass
    (text : List UInt8)
    (enough : text.length ≤ fuel) :
    settle fuel text = lastPass text := by
  induction fuel using Nat.strongRecOn generalizing text with
  | ind fuel ih =>
    unfold lastPass
    cases makes : makesPercent text with
    | false =>
      have stays (rounds : Nat) : settle rounds text = text := by
        cases rounds with
        | zero => rfl
        | succ rounds => rw [settle, makes]; rfl
      rw [stays, stays]
    | true =>
      have shorter := unescape_length_lt makes
      obtain ⟨rounds, isRounds⟩ : ∃ rounds, text.length = rounds + 1 := ⟨text.length - 1, by omega⟩
      obtain ⟨fuel, rfl⟩ := Nat.exists_eq_add_one.mpr (by omega : 0 < fuel)
      rw [isRounds, settle, if_pos makes, settle, if_pos makes,
        ih fuel (Nat.lt_succ_self _) _ (by omega),
        ih rounds (by omega) _ (by omega)]

theorem lastPass_of_makes
    (makes : makesPercent text = true) :
    lastPass text = lastPass (unescape text) := by
  have shorter := unescape_length_lt makes
  obtain ⟨rounds, isRounds⟩ : ∃ rounds, text.length = rounds + 1 := ⟨text.length - 1, by omega⟩
  rw [lastPass, isRounds, settle, if_pos makes, settle_eq_lastPass rounds _ (by omega)]

theorem lastPass_of_not_makes (makes : makesPercent text = false) : lastPass text = text := by
  unfold lastPass
  cases text.length with
  | zero => rfl
  | succ rounds => rw [settle, makes]; rfl

theorem lastPass_rule
    {P : List UInt8 → Prop}
    (passes : ∀ text, P text → P (unescape text))
    (text : List UInt8)
    (starts : P text) :
    P (lastPass text) := by
  unfold lastPass
  generalize text.length = rounds
  induction rounds generalizing text with
  | zero => exact starts
  | succ rounds ih =>
    rw [settle]
    split
    · exact ih _ (passes text starts)
    · exact starts

/-- All passes. -/
theorem hexPasses_text
    (front text back : List UInt8)
    (nonempty : front ≠ [])
    (enough : text.length < fuel) :
    ∃ junk,
      (unescape (lastPass text)).length + junk.length = text.length ∧
        hexPasses fuel (front ++ text ++ back) front.length (front.length + text.length - 1) =
          some (front ++ unescape (lastPass text) ++ (junk ++ back),
            front.length + (unescape (lastPass text)).length - 1) := by
  induction fuel generalizing front text back with
  | zero =>
    exact absurd enough (Nat.not_lt_zero _)
  | succ fuel ih =>
    have isFront := length_pos_of_ne_nil nonempty
    obtain ⟨junk, lengths, passes⟩ := hexPass_text text
      (front.length + text.length - 1 + 1) front back false (by omega)
    rw [hexPasses, passes]
    simp only [bind_eq_bind, bind_some, Bool.false_or]
    cases makes : makesPercent text with
    | false =>
      rw [lastPass_of_not_makes makes]
      exact ⟨junk, lengths, rfl⟩
    | true =>
      have shorter := unescape_length_lt makes
      obtain ⟨more, moreLengths, rest⟩ := ih front
        (unescape text) (junk ++ back) nonempty (by omega)
      rw [lastPass_of_makes makes, if_pos rfl, rest]
      refine ⟨more ++ junk, ?_, ?_⟩
      · rw [length_append]
        omega
      · rw [append_assoc more]

/-- The text from `*begin` to `*end` behind `str_hex_to_char`. -/
def hexToChar : List UInt8 → List UInt8
  | c :: high :: low :: rest =>
    if c = 0x25 then
      hex2int high low :: unescape (lastPass rest)
    else
      c :: unescape (lastPass (high :: low :: rest))
  | short => short

theorem hexToChar_ne_nil (nonempty : text ≠ []) : hexToChar text ≠ [] := by
  unfold hexToChar
  split
  · split
    all_goals exact cons_ne_nil _ _
  · exact nonempty

/-- The loops on a text in the buffer. -/
theorem strHexToChar_text
    (front text back : List UInt8)
    (nonempty : text ≠ []) :
    ∃ skipped junk, skipped.length + (hexToChar text).length + junk.length = text.length ∧
        strHexToChar (front ++ text ++ back) front.length (front.length + text.length - 1) =
          some (front ++ skipped ++ hexToChar text ++ (junk ++ back), front.length + skipped.length,
            front.length + skipped.length + (hexToChar text).length - 1) := by
  rcases text with _ | ⟨c, _ | ⟨high, _ | ⟨low, rest⟩⟩⟩
  · exact absurd rfl nonempty
  · refine ⟨[], [], rfl, ?_⟩
    unfold strHexToChar
    rw [if_pos (by simp)]
    simp [hexToChar]
  · refine ⟨[], [], rfl, ?_⟩
    unfold strHexToChar
    rw [if_pos (by simp)]
    simp [hexToChar]
  have isFirst : read (front ++ c :: high :: low :: rest ++ back) front.length = some c :=
    read_first
  have isEnd : front.length + (c :: high :: low :: rest).length - 1 =
      front.length + rest.length + 2 := by
    simp only [length_cons]
    omega
  unfold strHexToChar
  rw [isEnd, if_neg (by omega), isFirst]
  simp only [bind_eq_bind, bind_some]
  by_cases isPercent : c = 0x25
  · have isHigh : read (front ++ c :: high :: low :: rest ++ back)
        (front.length + 1) = some high := by
      rw [append_assoc]
      exact read_append_right front _
    have isLow : read (front ++ c :: high :: low :: rest ++ back)
        (front.length + 2) = some low := by
      rw [append_assoc]
      exact read_append_right front _
    have isWritten : write (front ++ c :: high :: low :: rest ++ back)
        (front.length + 2) (hex2int high low) =
          some (front ++ [c, high, hex2int high low] ++ rest ++ back) := by
      have := write_append (front ++ [c, high]) (rest ++ back) low
        (hex2int high low)
      simpa using this
    obtain ⟨junk, lengths, passes⟩ := hexPasses_text
      ((front ++ [c, high, hex2int high low]).length + rest.length - 1 + 1)
      (front ++ [c, high, hex2int high low]) rest back (by simp)
      (by simp only [length_append, length_cons]; omega)
    refine ⟨[c, high], junk, ?_, ?_⟩
    · simp only [hexToChar, if_pos isPercent, length_cons, length_nil]
      omega
    simp only [if_pos isPercent, isHigh, isLow, isWritten, bind_some,
      Option.pure_def, hexToChar]
    rw [show front.length + 2 + 1 = (front ++ [c, high, hex2int high low]).length by simp,
      show front.length + rest.length + 2 =
        (front ++ [c, high, hex2int high low]).length + rest.length - 1 by
          simp only [length_append, length_cons, length_nil]
          omega, passes]
    simp [Nat.add_assoc]
    omega
  · obtain ⟨junk, lengths, passes⟩ := hexPasses_text
      ((front ++ [c]).length + (high :: low :: rest).length - 1 + 1)
      (front ++ [c]) (high :: low :: rest) back (by simp)
      (by simp only [length_append, length_cons]; omega)
    refine ⟨[], junk, ?_, ?_⟩
    · simp only [hexToChar, if_neg isPercent, length_cons, length_nil] at lengths ⊢
      omega
    simp only [if_neg isPercent, bind_some, Option.pure_def, hexToChar]
    rw [show front ++ c :: high :: low :: rest ++ back =
        front ++ [c] ++ (high :: low :: rest) ++ back by simp,
      show front.length + 1 = (front ++ [c]).length by simp,
      show front.length + rest.length + 2 =
        (front ++ [c]).length + (high :: low :: rest).length - 1 by
          simp only [length_append, length_cons, length_nil]
          omega, passes]
    simp [Nat.add_assoc]
    omega

/-- One pass over a text that is followed by its terminator. -/
def decode : List UInt8 → List UInt8
  | c :: high :: low :: rest =>
    if c = 0x25 ∧ isxdigit high ∧ isxdigit low then
      hex2int high low :: decode rest
    else
      c :: decode (high :: low :: rest)
  | short => short

theorem decode_short
    (short : ∀ c high low rest, text = c :: high :: low :: rest → False) :
    decode text = text := by
  rw [decode]
  exact short

/-- The last byte stays. -/
theorem unescape_concat
    (text : List UInt8)
    (last : UInt8) :
    unescape (text ++ [last]) = decode text ++ [last] := by
  induction text using decode.induct with
  | case1 c high low rest isEscape ih =>
    obtain ⟨next, more, isMore⟩ : ∃ next more, rest ++ [last] = next :: more :=
      exists_cons_of_ne_nil (by simp)
    rw [decode, if_pos isEscape]
    show unescape (c :: high :: low :: (rest ++ [last])) =
      hex2int high low :: (decode rest ++ [last])
    rw [← ih, isMore, unescape, if_pos isEscape]
  | case2 c high low rest noEscape ih =>
    obtain ⟨next, more, isMore⟩ : ∃ next more, rest ++ [last] = next :: more :=
      exists_cons_of_ne_nil (by simp)
    rw [decode, if_neg noEscape]
    show unescape (c :: high :: low :: (rest ++ [last])) =
      c :: (decode (high :: low :: rest) ++ [last])
    rw [← ih, cons_append, cons_append, isMore, unescape, if_neg noEscape]
  | case3 short isShort =>
    rw [decode_short isShort]
    refine unescape_short fun c high low next rest isLong => ?_
    rcases short with _ | ⟨a, _ | ⟨b, _ | ⟨d, more⟩⟩⟩
    · cases isLong
    · cases isLong
    · cases isLong
    · exact isShort a b d more rfl

theorem lastPass_concat
    (text : List UInt8)
    (last : UInt8) :
    ∃ settled, lastPass (text ++ [last]) = settled ++ [last] := by
  refine lastPass_rule (P := fun later => ∃ settled, later = settled ++ [last]) ?_ _ ⟨text, rfl⟩
  rintro later ⟨settled, rfl⟩
  exact ⟨decode settled, unescape_concat settled last⟩

/-- All passes over a text that is followed by its terminator. -/
def decodeAll (text : List UInt8) : List UInt8 := decode (lastPass (text ++ [0])).dropLast

theorem unescape_lastPass_concat
    (text : List UInt8) :
    unescape (lastPass (text ++ [0])) = decodeAll text ++ [0] := by
  obtain ⟨settled, isSettled⟩ := lastPass_concat text 0
  rw [decodeAll, isSettled, unescape_concat, dropLast_concat]

/-- The text behind `str_hex_to_char`, if a terminator is behind the text. -/
def decodeText : List UInt8 → List UInt8
  | c :: next :: rest =>
    if c = 0x25 then
      match rest with
      | [] => []
      | low :: rest => hex2int next low :: decodeAll rest
    else
      c :: decodeAll (next :: rest)
  | short => short

/-- The text before the null byte is decoded. -/
theorem hexToChar_concat
    (text : List UInt8) :
    (hexToChar (text ++ [0])).dropLast = decodeText text := by
  rcases text with _ | ⟨c, _ | ⟨next, rest⟩⟩
  · rfl
  · rfl
  by_cases isPercent : c = 0x25
  · rcases rest with _ | ⟨low, rest⟩
    · simp [hexToChar, decodeText, isPercent, lastPass, settle, unescape]
    · rw [cons_append, cons_append, cons_append, hexToChar,
        if_pos isPercent, unescape_lastPass_concat, decodeText,
        if_pos isPercent, ← cons_append, dropLast_concat]
  rcases rest with _ | ⟨low, rest⟩
  · rw [cons_append, cons_append, nil_append, hexToChar,
      if_neg isPercent, decodeText, if_neg isPercent,
      show [next, (0 : UInt8)] = [next] ++ [0] from rfl,
      unescape_lastPass_concat, ← cons_append, dropLast_concat]
  rw [cons_append, cons_append, cons_append, hexToChar,
    if_neg isPercent, decodeText, if_neg isPercent, ← cons_append,
    ← cons_append, unescape_lastPass_concat, ← cons_append,
    dropLast_concat]

end LibClamav.Phish
