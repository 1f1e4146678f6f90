import LibClamav.LsigSource

namespace LibClamav.Lsig

open CText List

/-!
# Grammar of logical expressions

The expressions that `cli_ac_chklsig` is meant for, their text, and how its
scanning loop moves over that text.  Inside two or more parentheses the loop
only remembers modifiers; inside one it remembers the last operator; outside
it stops at the first operator.
-/

/-- A written decimal number: a nonempty run of digits. -/
structure Numeral where
  digits : List Char
  nonempty : digits ≠ []
  allDigits : ∀ c ∈ digits, c.isDigit = true

/-- The value `%u` converts a written number to. -/
def Numeral.value (numeral : Numeral) : Nat := digitsValue numeral.digits % 2 ^ 32

/-- The two operators. -/
inductive BinOp where
  | and
  | or
  deriving Repr, DecidableEq

/-- The character of an operator. -/
def BinOp.char : BinOp → Char
  | .and => '&'
  | .or => '|'

/-- The three comparisons of a modifier. -/
inductive Cmp where
  | eq
  | lt
  | gt
  deriving Repr, DecidableEq

/-- The character of a comparison. -/
def Cmp.char : Cmp → Char
  | .eq => '='
  | .lt => '<'
  | .gt => '>'

/-- A modifier `=X`, `=X,Y` and so on. -/
structure Modifier where
  cmp : Cmp
  count : Numeral
  distinct : Option Numeral

variable {modifier : Option Modifier}

/-- Text of the numbers of a modifier. -/
def Modifier.numbers (modifier : Modifier) : List Char := modifier.count.digits ++
    match modifier.distinct with
    | none => []
    | some numeral => ',' :: numeral.digits

/-- Text of an optional modifier. -/
def modifierText : Option Modifier → List Char
  | none => []
  | some modifier => modifier.cmp.char :: modifier.numbers

/--
Logical expressions.  `chain first op rest` is the text of `first`, the
operator and the text of `rest`, without parentheses of its own.
-/
inductive Expr where
  | id (numeral : Numeral) (modifier : Option Modifier)
  | paren (inner : Expr) (modifier : Option Modifier)
  | chain (first : Expr) (op : BinOp) (rest : Expr)

variable {inner later : Expr}

namespace Expr

/-- Whether an expression is an operator chain. -/
def IsChain : Expr → Prop
  | .chain .. => True
  | _ => False

/--
Well-formed expressions: the left operand of a chain is a single term, and a
modifier follows a subsignature or a parenthesised operator chain.
-/
def WellFormed : Expr → Prop
  | .id .. => True
  | .paren inner modifier =>
    inner.WellFormed ∧ (modifier ≠ none → inner.IsChain)
  | .chain first _ rest =>
    ¬ first.IsChain ∧ first.WellFormed ∧ rest.WellFormed

/-- The text of an expression. -/
def text : Expr → List Char
  | .id numeral modifier => numeral.digits ++ modifierText modifier
  | .paren inner modifier =>
    '(' :: (inner.text ++ ')' :: modifierText modifier)
  | .chain first op rest => first.text ++ op.char :: rest.text

/-- The operators of a chain that stand outside all parentheses. -/
def operators : Expr → List BinOp
  | .chain _ op rest => op :: rest.operators
  | _ => []

/-- Split a chain at its last operator. -/
def splitLast : Expr → BinOp → Expr → Expr × BinOp × Expr
  | first, op, .chain second nextOp rest =>
    let (init, lastOp, last) := splitLast second nextOp rest
    (.chain first op init, lastOp, last)
  | first, op, last => (first, op, last)

end Expr

/-! Facts about the scanning loop on the text of an expression. -/

/-- The loop with exactly the fuel that its position needs. -/
def scanFrom
    (body : List Char)
    (len i : Nat)
    (state : ScanState) :
    Option ScanState :=
  chklsigLoop body 0 len (len - i) i state

theorem skipBlockModifier_le
    (text : List Char)
    (expr len fuel : Nat)
    (i) :
    i ≤ skipBlockModifier text expr len fuel i := by
  induction fuel generalizing i with
  | zero =>
    exact Nat.le_refl i
  | succ fuel ih =>
    unfold skipBlockModifier
    simp only
    split
    · exact le_trans (Nat.le_succ i) (ih (i + 1))
    · exact Nat.le_refl i

variable {len i : Nat} {state : ScanState}

theorem chklsigBlock_le
    {text : List Char}
    {expr last : Nat}
    {blocked : ScanState}
    (blocks : chklsigBlock text expr len i state = some (last, blocked)) :
    i ≤ last := by
  unfold chklsigBlock at blocks
  simp only at blocks
  split at blocks
  · split at blocks
    · cases blocks
    · cases blocks
      exact le_trans (Nat.le_add_right i 2) (skipBlockModifier_le text expr len len (i + 2))
  · cases blocks
    exact Nat.le_refl i

/-- The loop needs no more rounds than characters. -/
theorem chklsigLoop_fuel
    (text : List Char)
    (expr len fuel : Nat)
    (more i state)
    (enough : len - i ≤ fuel) :
    chklsigLoop text expr len (fuel + more) i state =
      chklsigLoop text expr len fuel i state := by
  induction fuel generalizing more i state with
  | zero =>
    have finished : ¬ i < len := by omega
    cases more with
    | zero => rfl
    | succ more => simp [chklsigLoop, finished]
  | succ fuel ih =>
    rw [Nat.add_right_comm]
    unfold chklsigLoop
    split
    · cases chklsigSwitch (charAt text (expr + i)) i state with
      | none => rfl
      | some switched =>
        simp only
        split
        · rfl
        split
        · cases blocks : chklsigBlock text expr len i switched with
          | none => rfl
          | some result =>
            obtain ⟨last, blocked⟩ := result
            have forward := chklsigBlock_le blocks
            simp only
            split
            · rfl
            · exact ih more (last + 1) _ (by omega)
        · exact ih more (i + 1) _ (by omega)
    · rfl

/-- The scan ends at the end of its text. -/
theorem scanFrom_end
    (body : List Char)
    (len : Nat)
    (state : ScanState) :
    scanFrom body len len state = some state := by
  simp [scanFrom, chklsigLoop]

variable {body rest : List Char} {c : Char} (numeral : Numeral) (cmp : Cmp)

/-- One character that ends no block. -/
theorem scanFrom_step
    {switched : ScanState}
    (remaining : body.drop i = c :: rest)
    (inRange : i < len)
    (switches : chklsigSwitch c i state = some switched)
    (noOp : switched.op = none)
    (noBlock : switched.op1 = none ∨ switched.pth ≠ 0) :
    scanFrom body len i state = scanFrom body len (i + 1) switched := by
  have fuelStep : len - i = (len - (i + 1)) + 1 := by omega
  unfold scanFrom
  rw [fuelStep]
  conv_lhs => unfold chklsigLoop
  rw [if_pos inRange, zero_add, charAt_of_drop remaining, switches]
  have notBlock : ¬ (switched.op1.isSome ∧ switched.pth = 0) := by
    rintro ⟨found, closed⟩
    rcases noBlock with missing | deep
    · simp [missing] at found
    · exact deep closed
  simp [noOp, notBlock]

/-- Characters that occur in written numbers. -/
def isPlain (c : Char) : Bool := c.isDigit || c == ','

theorem chklsigSwitch_plain
    (plain : isPlain c = true)
    (i : Nat)
    (state : ScanState) :
    chklsigSwitch c i state = some state := by
  have ne (other : Char) (odd : isPlain other = false) : c ≠ other := by
    rintro rfl
    simp [plain] at odd
  have notModifier : isModifier c = false := by
    simp [isModifier, ne '>' (by decide), ne '<' (by decide), ne '=' (by decide)]
  simp [chklsigSwitch, notModifier, ne '(' (by decide), ne ')' (by decide),
    ne '&' (by decide), ne '|' (by decide)]

/-- Plain characters change nothing. -/
theorem scanFrom_plain
    (state : ScanState)
    (noOp : state.op = none)
    (noBlock : state.op1 = none ∨ state.pth ≠ 0)
    (segment : List Char)
    (i : Nat)
    (rest : List Char)
    (plain : ∀ c ∈ segment, isPlain c = true)
    (remaining : body.drop i = segment ++ rest)
    (fits : i + segment.length ≤ len) :
    scanFrom body len i state = scanFrom body len (i + segment.length) state := by
  induction segment generalizing i rest with
  | nil =>
    rfl
  | cons c segment ih =>
    have later : body.drop (i + 1) = segment ++ rest := by
      rw [← drop_drop, remaining]
      rfl
    rw [length_cons] at fits
    rw [scanFrom_step remaining (by omega)
      (chklsigSwitch_plain (plain c (by simp)) i state) noOp noBlock,
      ih (i + 1) rest (fun other mem => plain other (by simp [mem])) later (by omega)]
    congr 1
    simp only [length_cons]
    omega

/-- The state after a modifier at position `i`. -/
def noteModifier
    (i : Nat)
    (modifier : Option Modifier)
    (state : ScanState) :
    ScanState :=
  match modifier with
  | none => state
  | some modifier =>
    { state with mod := some modifier.cmp.char, modoff := i }

theorem Numeral.isPlain : ∀ c ∈ numeral.digits, Lsig.isPlain c = true := by
  intro c mem
  simp [Lsig.isPlain, numeral.allDigits c mem]

theorem Modifier.numbers_isPlain
    (modifier : Modifier) :
    ∀ c ∈ modifier.numbers, isPlain c = true := by
  intro c mem
  rcases mem_append.mp mem with inCount | inDistinct
  · exact modifier.count.isPlain c inCount
  cases distinct : modifier.distinct with
  | none =>
    simp [distinct] at inDistinct
  | some numeral =>
    rw [distinct] at inDistinct
    rcases mem_cons.mp inDistinct with isComma | inDigits
    · subst c
      decide
    · exact numeral.isPlain c inDigits

theorem chklsigSwitch_cmp
    (i : Nat)
    (state : ScanState) :
    chklsigSwitch cmp.char i state = some { state with mod := some cmp.char, modoff := i } := by
  cases cmp <;> simp [chklsigSwitch, Cmp.char, isModifier]

/-- A modifier is noted, its numbers are plain. -/
theorem scanFrom_modifier
    (modifier : Option Modifier)
    (noOp : state.op = none)
    (noBlock : state.op1 = none ∨ state.pth ≠ 0)
    (remaining : body.drop i = modifierText modifier ++ rest)
    (fits : i + (modifierText modifier).length ≤ len) :
    scanFrom body len i state = scanFrom body len (i + (modifierText modifier).length)
        (noteModifier i modifier state) := by
  cases modifier with
  | none =>
    rfl
  | some modifier =>
    have later : body.drop (i + 1) = modifier.numbers ++ rest := by
      rw [← drop_drop, remaining]
      rfl
    simp only [modifierText, length_cons] at fits ⊢
    have positions : i + 1 + modifier.numbers.length = i + (modifier.numbers.length + 1) := by omega
    rw [← positions]
    calc
      scanFrom body len i state = scanFrom body len (i + 1)
            (noteModifier i (some modifier) state) :=
        scanFrom_step remaining (by omega) (chklsigSwitch_cmp modifier.cmp i state) noOp noBlock
      _ = scanFrom body len (i + 1 + modifier.numbers.length)
            (noteModifier i (some modifier) state) :=
        scanFrom_plain (noteModifier i (some modifier) state)
          noOp noBlock modifier.numbers (i + 1) rest
          modifier.numbers_isPlain later (by omega)

theorem drop_after
    {segment : List Char}
    (remaining : body.drop i = segment ++ rest) :
    body.drop (i + segment.length) = rest := by
  rw [← drop_drop, remaining, drop_left]

theorem drop_next (remaining : body.drop i = c :: rest) : body.drop (i + 1) = rest := by
  rw [← drop_drop, remaining]
  rfl

/-- The state with another memory of modifiers. -/
def withModifier
    (state : ScanState)
    (mod : Option Char)
    (modoff : Nat) :
    ScanState :=
  { state with mod := mod, modoff := modoff }

theorem noteModifier_eq
    (i : Nat)
    (modifier : Option Modifier)
    (state : ScanState) :
    ∃ mod modoff,
      noteModifier i modifier state = withModifier state mod modoff := by
  cases modifier with
  | none => exact ⟨state.mod, state.modoff, rfl⟩
  | some modifier => exact ⟨some modifier.cmp.char, i, rfl⟩

theorem chklsigSwitch_open (i : Nat) (state : ScanState) : chklsigSwitch '(' i state =
      some { state with pth := state.pth + 1 } := by
  simp [chklsigSwitch]

theorem chklsigSwitch_close {depth : Nat} (i : Nat) (inside : state.pth = depth + 1) :
    chklsigSwitch ')' i state = some (withModifier { state with pth := depth } (some ')') i) := by
  simp [chklsigSwitch, inside, withModifier]

/-- A subsignature leaves only its modifier. -/
theorem scanFrom_id
    (modifier : Option Modifier)
    (noOp : state.op = none)
    (noBlock : state.op1 = none ∨ state.pth ≠ 0)
    (remaining : body.drop i = (Expr.id numeral modifier).text ++ rest)
    (fits : i + (Expr.id numeral modifier).text.length ≤ len) :
    scanFrom body len i state = scanFrom body len (i + (Expr.id numeral modifier).text.length)
        (noteModifier (i + numeral.digits.length) modifier state) := by
  simp only [Expr.text, append_assoc, length_append] at remaining fits ⊢
  rw [scanFrom_plain state noOp noBlock numeral.digits i _ numeral.isPlain remaining (by omega),
    scanFrom_modifier modifier noOp noBlock (drop_after remaining) (by omega), add_assoc]

/-- The parts of an expression in parentheses. -/
theorem drop_paren (remaining : body.drop i = (Expr.paren inner modifier).text ++ rest) :
    body.drop i = '(' :: (inner.text ++ ')' :: (modifierText modifier ++ rest)) ∧
      body.drop (i + 1) = inner.text ++ ')' :: (modifierText modifier ++ rest) ∧
      body.drop (i + 1 + inner.text.length) = ')' :: (modifierText modifier ++ rest) ∧
      body.drop (i + 1 + inner.text.length + 1) = modifierText modifier ++ rest := by
  have opening : body.drop i = '(' :: (inner.text ++ ')' :: (modifierText modifier ++ rest)) := by
    simpa [Expr.text] using remaining
  have inside := drop_next opening
  have closing := drop_after inside
  exact ⟨opening, inside, closing, drop_next closing⟩

/--
A parenthesised expression is scanned through its inside, provided that its
closing parenthesis does not end a block.
-/
theorem scanFrom_paren
    {inside : ScanState}
    (noOp : state.op = none)
    (remaining : body.drop i = (Expr.paren inner modifier).text ++ rest)
    (fits : i + (Expr.paren inner modifier).text.length ≤ len)
    (innerScan :
      scanFrom body len (i + 1) { state with pth := state.pth + 1 } =
        scanFrom body len (i + 1 + inner.text.length) inside)
    (insideOp : inside.op = none)
    (insideDepth : inside.pth = state.pth + 1)
    (noBlock : inside.op1 = none ∨ state.pth ≠ 0) :
    ∃ mod modoff, scanFrom body len i state =
        scanFrom body len (i + (Expr.paren inner modifier).text.length)
          (withModifier { inside with pth := state.pth } mod modoff) := by
  obtain ⟨opening, -, closing, behind⟩ := drop_paren remaining
  have lengths : i + (Expr.paren inner modifier).text.length =
        i + 1 + inner.text.length + 1 + (modifierText modifier).length := by
    simp only [Expr.text, length_cons, length_append]
    omega
  rw [lengths] at fits ⊢
  let closed :=
    withModifier { inside with pth := state.pth } (some ')') (i + 1 + inner.text.length)
  obtain ⟨mod, modoff, noted⟩ := noteModifier_eq (i + 1 + inner.text.length + 1) modifier closed
  refine ⟨mod, modoff, ?_⟩
  calc
    scanFrom body len i state = scanFrom body len (i + 1) { state with pth := state.pth + 1 } :=
      scanFrom_step opening (by omega) (chklsigSwitch_open i state) noOp
        (.inr (Nat.succ_ne_zero state.pth))
    _ = scanFrom body len (i + 1 + inner.text.length) inside := innerScan
    _ = scanFrom body len (i + 1 + inner.text.length + 1) closed :=
      scanFrom_step closing (by omega) (chklsigSwitch_close (i + 1 + inner.text.length) insideDepth)
        insideOp noBlock
    _ = scanFrom body len
          (i + 1 + inner.text.length + 1 + (modifierText modifier).length)
          (noteModifier (i + 1 + inner.text.length + 1) modifier closed) :=
      scanFrom_modifier modifier insideOp noBlock behind fits
    _ = scanFrom body len
          (i + 1 + inner.text.length + 1 + (modifierText modifier).length)
          (withModifier { inside with pth := state.pth } mod modoff) := by
      rw [noted]
      rfl

variable {first : Expr} {op : BinOp}

/-- The parts of two expressions with an operator. -/
theorem drop_chain
    (remaining : body.drop i = (Expr.chain first op later).text ++ rest) :
    body.drop i = first.text ++ op.char :: (later.text ++ rest) ∧
      body.drop (i + first.text.length) = op.char :: (later.text ++ rest) ∧
      body.drop (i + first.text.length + 1) = later.text ++ rest := by
  have leading : body.drop i = first.text ++ op.char :: (later.text ++ rest) := by
    simpa [Expr.text] using remaining
  have atOp := drop_after leading
  exact ⟨leading, atOp, drop_next atOp⟩

theorem chain_text_length
    (first : Expr)
    (op : BinOp)
    (later : Expr) :
    (Expr.chain first op later).text.length = first.text.length + 1 + later.text.length := by
  simp only [Expr.text, length_cons, length_append]
  omega

/-- An operator in inner parentheses is passed over. -/
theorem chklsigSwitch_op_deep
    (op : BinOp)
    (i : Nat)
    (deep : 2 ≤ state.pth) :
    chklsigSwitch op.char i state = some state := by
  have notZero : state.pth ≠ 0 := by omega
  have notOne : state.pth ≠ 1 := by omega
  cases op <;> simp [chklsigSwitch, BinOp.char, isModifier, notZero, notOne]

/-- Inside parentheses a term is passed by, and two or more of them hide the operators too. -/
theorem scanFrom_inside
    (expression : Expr)
    (i : Nat)
    (rest : List Char)
    (state : ScanState)
    (remaining : body.drop i = expression.text ++ rest)
    (fits : i + expression.text.length ≤ len)
    (noOp : state.op = none)
    (inside : state.pth ≠ 0)
    (deep : expression.IsChain → 2 ≤ state.pth) :
    ∃ mod modoff, scanFrom body len i state = scanFrom body len (i + expression.text.length)
      (withModifier state mod modoff) := by
  induction expression generalizing i rest state with
  | id numeral modifier =>
    obtain ⟨mod, modoff, noted⟩ := noteModifier_eq (i + numeral.digits.length) modifier state
    refine ⟨mod, modoff, ?_⟩
    rw [scanFrom_id numeral modifier noOp (.inr inside) remaining fits, noted]
  | paren inner modifier ih =>
    obtain ⟨-, opened, -, -⟩ := drop_paren remaining
    have innerFits : i + 1 + inner.text.length ≤ len := by
      simp only [Expr.text, length_cons, length_append] at fits
      omega
    have deeper : 2 ≤ state.pth + 1 := by omega
    obtain ⟨innerMod, innerOff, innerScan⟩ := ih (i + 1) _ { state with pth := state.pth + 1 }
        opened innerFits noOp (Nat.succ_ne_zero _) fun _ => deeper
    obtain ⟨mod, modoff, scanned⟩ :=
      scanFrom_paren noOp remaining fits innerScan noOp rfl (.inr inside)
    exact ⟨mod, modoff, scanned⟩
  | chain first op later firstHypothesis laterHypothesis =>
    have deep := deep trivial
    obtain ⟨leading, atOp, behind⟩ := drop_chain remaining
    rw [chain_text_length] at fits ⊢
    obtain ⟨firstMod, firstOff, firstScan⟩ :=
      firstHypothesis i _ state leading (by omega) noOp inside fun _ => deep
    obtain ⟨mod, modoff, laterScan⟩ := laterHypothesis (i + first.text.length + 1) rest
        (withModifier state firstMod firstOff) behind (by omega) noOp inside fun _ => deep
    refine ⟨mod, modoff, ?_⟩
    calc
      scanFrom body len i state = scanFrom body len (i + first.text.length)
            (withModifier state firstMod firstOff) := firstScan
      _ = scanFrom body len (i + first.text.length + 1)
            (withModifier state firstMod firstOff) :=
        scanFrom_step atOp (by omega) (chklsigSwitch_op_deep op _ deep) noOp (.inr inside)
      _ = scanFrom body len
            (i + first.text.length + 1 + later.text.length)
            (withModifier state mod modoff) := laterScan
      _ = scanFrom body len
            (i + (first.text.length + 1 + later.text.length))
            (withModifier state mod modoff) := by
        congr 1
        omega

/-- One in the outer parentheses is noted. -/
theorem chklsigSwitch_op_shallow
    (op : BinOp)
    (i : Nat)
    (depth : state.pth = 1) :
    chklsigSwitch op.char i state = some { state with op1 := some op.char, op1off := i } := by
  cases op <;> simp [chklsigSwitch, BinOp.char, isModifier, depth]

/-- The state that remembers an operator at depth one. -/
def withOp1 (state : ScanState) (op : BinOp) (op1off : Nat) : ScanState :=
  { state with op1 := some op.char, op1off := op1off }

/-- The scan up to the first operator in the parentheses. -/
theorem scanFrom_shallow_head
    (firstTerm : ¬ first.IsChain)
    (remaining : body.drop i = (Expr.chain first op later).text ++ rest)
    (fits : i + (Expr.chain first op later).text.length ≤ len)
    (noOp : state.op = none)
    (depth : state.pth = 1) :
    ∃ mod modoff, scanFrom body len i state = scanFrom body len (i + first.text.length + 1)
          (withOp1 (withModifier state mod modoff) op (i + first.text.length)) := by
  obtain ⟨leading, atOp, -⟩ := drop_chain remaining
  rw [chain_text_length] at fits
  have firstFits : i + first.text.length ≤ len := by omega
  obtain ⟨mod, modoff, firstScan⟩ := scanFrom_inside first i _ state leading firstFits noOp
    (by omega) fun isChain => absurd isChain firstTerm
  refine ⟨mod, modoff, ?_⟩
  calc
    scanFrom body len i state = scanFrom body len (i + first.text.length)
          (withModifier state mod modoff) := firstScan
    _ = scanFrom body len (i + first.text.length + 1)
          (withOp1 (withModifier state mod modoff) op (i + first.text.length)) :=
      scanFrom_step atOp (by omega) (chklsigSwitch_op_shallow op _ depth) noOp
        (.inr (by simp [withModifier, withOp1, depth]))

/-- A chain is its text up to the last operator and the rest. -/
theorem Expr.splitLast_text
    (later : Expr)
    (first : Expr)
    (op : BinOp) :
    (Expr.chain first op later).text =
      (Expr.splitLast first op later).1.text ++ (Expr.splitLast first op later).2.1.char ::
          (Expr.splitLast first op later).2.2.text := by
  induction later generalizing first op with
  | id numeral modifier | paren inner modifier _ =>
    rfl
  | chain second nextOp rest _ restHypothesis =>
    simp only [Expr.splitLast, Expr.text] at restHypothesis ⊢
    rw [restHypothesis second nextOp]
    simp

/-- The last operator in the outer parentheses is the one noted. -/
theorem scanFrom_shallow_chain
    (later : Expr)
    (first : Expr)
    (op : BinOp)
    (i : Nat)
    (rest : List Char)
    (state : ScanState)
    (wellFormed : (Expr.chain first op later).WellFormed)
    (remaining : body.drop i = (Expr.chain first op later).text ++ rest)
    (fits : i + (Expr.chain first op later).text.length ≤ len)
    (noOp : state.op = none)
    (depth : state.pth = 1) :
    ∃ mod modoff, scanFrom body len i state =
      scanFrom body len (i + (Expr.chain first op later).text.length)
        (withModifier (withOp1 state (Expr.splitLast first op later).2.1
            (i + (Expr.splitLast first op later).1.text.length))
          mod modoff) := by
  induction later generalizing first op i rest state with
  | id numeral modifier | paren inner modifier _ =>
    obtain ⟨firstMod, firstOff, headScan⟩ :=
      scanFrom_shallow_head wellFormed.1 remaining fits noOp depth
    obtain ⟨-, -, behind⟩ := drop_chain remaining
    rw [chain_text_length, ← add_assoc, ← add_assoc] at fits ⊢
    obtain ⟨mod, modoff, lastScan⟩ := scanFrom_inside _ (i + first.text.length + 1) rest
      (withOp1 (withModifier state firstMod firstOff) op (i + first.text.length))
      behind fits noOp (depth ▸ Nat.one_ne_zero) nofun
    exact ⟨mod, modoff, headScan.trans lastScan⟩
  | chain second nextOp further _ furtherHypothesis =>
    obtain ⟨firstTerm, -, laterWellFormed⟩ := wellFormed
    obtain ⟨firstMod, firstOff, headScan⟩ :=
      scanFrom_shallow_head firstTerm remaining fits noOp depth
    obtain ⟨-, -, behind⟩ := drop_chain remaining
    have lengths := chain_text_length first op (Expr.chain second nextOp further)
    obtain ⟨mod, modoff, laterScan⟩ :=
      furtherHypothesis second nextOp (i + first.text.length + 1) rest
        (withOp1 (withModifier state firstMod firstOff) op (i + first.text.length))
        laterWellFormed behind (by omega) noOp depth
    refine ⟨mod, modoff, ?_⟩
    have initLength :
        i + (Expr.splitLast first op (Expr.chain second nextOp further)).1.text.length =
          i + first.text.length + 1 + (Expr.splitLast second nextOp further).1.text.length := by
      simp only [Expr.splitLast, chain_text_length]
      omega
    rw [headScan, laterScan, initLength]
    congr 1
    omega

/-- What may stand behind an expression: an operator, a parenthesis, the end. -/
def Follows (post : List Char) : Prop := ∀ c ∈ post.head?, c = '&' ∨ c = '|' ∨ c = ')'

variable {post : List Char}

theorem Follows.notPlain (follows : Follows post) : ∀ c ∈ post.head?, isPlain c = false := by
  intro c mem
  rcases follows c mem with rfl | rfl | rfl <;> decide

theorem Follows.notDigit (follows : Follows post) : ∀ c ∈ post.head?, c.isDigit = false := by
  intro c mem
  rcases follows c mem with rfl | rfl | rfl <;> decide

theorem Follows.charAt
    (follows : Follows post)
    (remaining : body.drop i = post) :
    isPlain (CText.charAt body i) = false ∧ isModifier (CText.charAt body i) = false := by
  cases post with
  | nil =>
    rw [charAt_of_drop_nil remaining]
    decide
  | cons c rest =>
    rw [charAt_of_drop remaining]
    rcases follows c (by simp) with rfl | rfl | rfl <;> decide

/-- The numbers of a modifier are skipped. -/
theorem skipBlockModifier_numbers
    (follows : Follows post)
    (behind : List Char)
    (fuel i : Nat)
    (plain : ∀ c ∈ behind, isPlain c = true)
    (remaining : body.drop (i + 1) = behind ++ post)
    (fits : i + 1 + behind.length ≤ len)
    (enough : behind.length ≤ fuel) :
    skipBlockModifier body 0 len fuel i = i + behind.length := by
  induction behind generalizing fuel i with
  | nil =>
    cases fuel with
    | zero => rfl
    | succ fuel =>
      have stops := (follows.charAt remaining).1
      unfold skipBlockModifier
      rw [zero_add]
      simp only [isPlain, Bool.or_eq_false_iff, beq_eq_false_iff_ne] at stops
      simp [stops]
  | cons c behind ih =>
    cases fuel with
    | zero => simp at enough
    | succ fuel =>
      have isNumber := plain c (by simp)
      simp only [isPlain, Bool.or_eq_true, beq_iff_eq] at isNumber
      simp only [length_cons] at fits enough ⊢
      unfold skipBlockModifier
      rw [zero_add, charAt_of_drop remaining]
      have goesOn : i + 1 < len ∧ (c.isDigit = true ∨ c = ',') := ⟨by omega, isNumber⟩
      simp only [goesOn, and_self, ↓reduceIte]
      rw [ih fuel (i + 1) (fun other mem => plain other (by simp [mem]))
        (drop_next remaining) (by omega) (by omega)]
      omega

/-- The count of a modifier is read. -/
theorem scanUnsigned_count
    (modifier : Modifier)
    (follows : Follows post) :
    scanUnsigned (modifier.numbers ++ post) = some (modifier.count.value,
        (match modifier.distinct with
          | none => []
          | some numeral => ',' :: numeral.digits) ++ post) := by
  unfold Modifier.numbers
  rw [append_assoc]
  apply scanUnsigned_digits modifier.count.nonempty modifier.count.allDigits
  cases modifier.distinct with
  | none =>
    simpa using follows.notDigit
  | some numeral =>
    intro c mem
    simp only [cons_append, head?_cons, Option.mem_def, Option.some.injEq] at mem
    subst c
    decide

/-- The state after a block that ended at `i`. -/
def blockState
    (i : Nat)
    (modifier : Option Modifier)
    (state : ScanState) :
    ScanState :=
  match modifier with
  | none => { state with blkend := i }
  | some modifier =>
    { state with
      blkend := i
      blkmod := some modifier.cmp.char
      modval1 := modifier.count.value
      modval2 := (modifier.distinct.map Numeral.value).getD 0 }

theorem Cmp.isModifier : Lsig.isModifier cmp.char = true := by
  cases cmp <;> decide

/-- The modifier of a block is read. -/
theorem chklsigBlock_modifier
    (state : ScanState)
    (modifier : Option Modifier)
    (follows : Follows post)
    (fresh : state.modval2 = 0)
    (behind : body.drop (i + 1) = modifierText modifier ++ post)
    (fits : i + 1 + (modifierText modifier).length ≤ len) :
    chklsigBlock body 0 len i state = some (i + (modifierText modifier).length,
        blockState i modifier state) := by
  unfold chklsigBlock
  rw [zero_add]
  cases modifier with
  | none =>
    have notModifier := (follows.charAt behind).2
    simp [notModifier, modifierText, blockState]
  | some modifier =>
    have atCmp : charAt body (i + 1) = modifier.cmp.char := charAt_of_drop behind
    have numbers : body.drop (i + 2) = modifier.numbers ++ post := drop_next behind
    obtain ⟨digit, digits, digitsShape⟩ := exists_cons_of_ne_nil modifier.count.nonempty
    have numbersShape : modifier.numbers = digit :: (digits ++
            match modifier.distinct with
            | none => []
            | some numeral => ',' :: numeral.digits) := by
      rw [Modifier.numbers, digitsShape]
      rfl
    simp only [modifierText, length_cons] at fits ⊢
    have skipped : skipBlockModifier body 0 len len (i + 2) =
          i + (modifier.numbers.length + 1) := by
      rw [numbersShape] at numbers fits ⊢
      rw [skipBlockModifier_numbers follows _ len (i + 2)
        (fun c mem => modifier.numbers_isPlain c (by rw [numbersShape]; simp [mem]))
        (drop_next numbers)]
      · simp only [length_cons]
        omega
      all_goals
        simp only [length_cons] at fits
        omega
    rw [atCmp, modifier.cmp.isModifier, numbers, scanUnsigned_count modifier follows, skipped]
    cases distinct : modifier.distinct with
    | none =>
      have noComma : ∀ later, post ≠ ',' :: later := by
        rintro later rfl
        exact absurd (follows.notPlain ',' (by simp)) (by decide)
      simp only [↓reduceIte, nil_append, blockState, distinct,
        Option.map_none, Option.getD_none, fresh]
    | some numeral =>
      have second : scanUnsigned (numeral.digits ++ post) = some (numeral.value, post) :=
        scanUnsigned_digits numeral.nonempty numeral.allDigits follows.notDigit
      simp [second, blockState, distinct]

end LibClamav.Lsig
