import LibClamav.LsigGrammar

namespace LibClamav.Lsig

open CText List Option

/-!
# Meaning of logical expressions

What `cli_ac_chklsig` computes on the text of an expression.  A bare operator
chain is split at its first operator, a parenthesised one at its last, so the
two readings are kept apart as `rightChain` and `blockChain`.
-/

variable {i : Nat} {state : ScanState} {text : List Char}

/-! How one invocation splits the text of an expression. -/

/-- The parenthesis that closes the block ends the scan. -/
theorem scanFrom_close {body post : List Char} {len : Nat} {modifier : Option Modifier}
    (follows : Follows post) (closing : body.drop i = ')' :: (modifierText modifier ++ post))
    (fits : i + (modifierText modifier).length + 1 ≤ len) (noOp : state.op = none)
    (depth : state.pth = 1) (hasOp1 : state.op1.isSome = true) (fresh : state.modval2 = 0) :
    scanFrom body len i state =
      if i + (modifierText modifier).length + 1 = len then
        some (blockState i modifier (withModifier { state with pth := 0 } (some ')') i))
      else
        scanFrom body len (i + (modifierText modifier).length + 1)
          { blockState i modifier
              (withModifier { state with pth := 0 } (some ')') i) with
            blkmod := none } := by
  have fuelStep : len - i = (len - (i + 1)) + 1 := by omega
  have blocks := chklsigBlock_modifier (withModifier { state with pth := 0 } (some ')') i)
      modifier follows fresh (drop_next closing)
      (show i + 1 + (modifierText modifier).length ≤ len by omega)
  unfold scanFrom
  rw [fuelStep]
  conv_lhs => unfold chklsigLoop
  rw [if_pos (show i < len by omega), zero_add, charAt_of_drop closing, chklsigSwitch_close i depth]
  have blockEnds : (withModifier { state with pth := 0 } (some ')') i).op1.isSome = true ∧
        (withModifier { state with pth := 0 } (some ')') i).pth = 0 :=
    ⟨hasOp1, rfl⟩
  have noOuter : ¬ (withModifier { state with pth := 0 } (some ')') i).op.isSome =
        true := by
    simp [withModifier, noOp]
  simp only [noOuter, blockEnds, blocks, and_self, ↓reduceIte, Bool.false_eq_true]
  split
  · rfl
  have fuelRest : len - (i + 1) = (len - (i + (modifierText modifier).length + 1)) +
          (modifierText modifier).length := by
    omega
  rw [fuelRest]
  exact chklsigLoop_fuel body 0 len _ _ _ _ (le_rfl)

theorem skipBlockModifier_drop
    (text : List Char)
    (expr len fuel : Nat)
    (i) :
    skipBlockModifier text expr len fuel i =
      skipBlockModifier (text.drop expr) 0 len fuel i := by
  induction fuel generalizing i with
  | zero =>
    rfl
  | succ fuel ih =>
    unfold skipBlockModifier
    rw [charAt_drop, ih (i + 1), zero_add, add_assoc]

theorem chklsigBlock_drop
    (text : List Char)
    (expr len i : Nat)
    (state : ScanState) :
    chklsigBlock text expr len i state = chklsigBlock (text.drop expr) 0 len i state := by
  unfold chklsigBlock
  rw [charAt_drop, drop_drop, skipBlockModifier_drop, zero_add, add_assoc, add_assoc]

theorem chklsigLoop_drop
    (text : List Char)
    (expr len fuel : Nat)
    (i state) :
    chklsigLoop text expr len fuel i state =
      chklsigLoop (text.drop expr) 0 len fuel i state := by
  induction fuel generalizing i state with
  | zero =>
    rfl
  | succ fuel ih =>
    unfold chklsigLoop
    simp only [charAt_drop, zero_add, ih, chklsigBlock_drop text expr len i]

/-- The loop is a scan of the text from its start. -/
theorem chklsigLoop_eq_scanFrom
    (text : List Char)
    (expr len : Nat) :
    chklsigLoop text expr (expr + len - expr) (expr + len - expr) 0 {} =
      scanFrom (text.drop expr) len 0 {} := by
  rw [Nat.add_sub_cancel_left]
  exact chklsigLoop_drop text expr len len 0 {}

/-- No expression is empty. -/
theorem Expr.text_length_pos (expression : Expr) : 0 < expression.text.length := by
  cases expression with
  | id numeral modifier =>
    have digits := length_pos_iff.mpr numeral.nonempty
    simp only [Expr.text, length_append]
    omega
  | paren inner modifier =>
    simp [Expr.text]
  | chain first op rest =>
    rw [chain_text_length]
    omega

variable {post : List Char} {expr : Nat}

/-- A subsignature is an atom. -/
theorem chklsigSplit_id
    (numeral : Numeral)
    (modifier : Option Modifier)
    (follows : Follows post)
    (remaining : text.drop expr = (Expr.id numeral modifier).text ++ post) :
    chklsigSplit text expr (expr + (Expr.id numeral modifier).text.length) = .atom numeral.value
        (modifier.map fun m => (m.cmp.char, some m.count.value)) := by
  have scanned : scanFrom (text.drop expr) (Expr.id numeral modifier).text.length 0 {} =
        some (noteModifier numeral.digits.length modifier {}) := by
    have start : (text.drop expr).drop 0 = (Expr.id numeral modifier).text ++ post := remaining
    rw [scanFrom_id numeral modifier rfl (.inl rfl) start
      (le_of_eq (zero_add _)), zero_add, scanFrom_end,
      zero_add]
  have digitsFirst : text.drop expr = numeral.digits ++ (modifierText modifier ++ post) := by
    rw [remaining, Expr.text, append_assoc]
  have numberEnds : ∀ c ∈ (modifierText modifier ++ post).head?, c.isDigit = false := by
    cases modifier with
    | none =>
      exact follows.notDigit
    | some modifier =>
      intro c mem
      simp only [modifierText, cons_append, head?_cons, mem_def, some.injEq] at mem
      subst c
      cases modifier.cmp <;> decide
  have converted : scanUnsigned (text.drop expr) =
        some (numeral.value, modifierText modifier ++ post) := by
    rw [digitsFirst]
    exact scanUnsigned_digits numeral.nonempty numeral.allDigits numberEnds
  have noParenthesis : charAt text expr ≠ '(' := by
    obtain ⟨digit, digits, digitsShape⟩ := exists_cons_of_ne_nil numeral.nonempty
    have isDigit := numeral.allDigits digit (by simp [digitsShape])
    rw [digitsShape] at digitsFirst
    rw [charAt_of_drop digitsFirst]
    rintro rfl
    exact absurd isDigit (by decide)
  unfold chklsigSplit
  simp only [chklsigLoop_eq_scanFrom, scanned]
  cases modifier with
  | none =>
    simp [noteModifier, splitAtom, noParenthesis, converted]
  | some modifier =>
    have numbers : text.drop (expr + numeral.digits.length + 1) = modifier.numbers ++ post := by
      exact drop_next (drop_after digitsFirst)
    simp [noteModifier, splitAtom, noParenthesis, converted, numbers,
      scanUnsigned_count modifier follows]

variable {body : List Char} {len : Nat} {inner : Expr} {modifier : Option Modifier}

/-- A term in parentheses leaves no operator. -/
theorem scanFrom_outer_term
    (term : ¬ inner.IsChain)
    (remaining : body.drop 0 = (Expr.paren inner modifier).text ++ post)
    (fits : 0 + (Expr.paren inner modifier).text.length ≤ len) :
    ∃ mod modoff, scanFrom body len 0 {} =
        scanFrom body len (0 + (Expr.paren inner modifier).text.length)
          (withModifier {} mod modoff) := by
  obtain ⟨-, inside, -, -⟩ := drop_paren remaining
  have innerFits : 0 + 1 + inner.text.length ≤ len := by
    simp only [Expr.text, length_cons, length_append] at fits
    omega
  obtain ⟨innerMod, innerOff, innerScan⟩ :=
    scanFrom_inside inner (0 + 1) _ { pth := 1 } inside innerFits rfl Nat.one_ne_zero
      fun isChain => absurd isChain term
  have noOp : ({} : ScanState).op = none := rfl
  have noOp1 : (withModifier { pth := 1 } innerMod innerOff).op1 = none := rfl
  exact scanFrom_paren noOp remaining fits innerScan noOp rfl (.inl noOp1)

/-- What the loop knows behind a block that was opened at the start. -/
def outerBlock
    (first : Expr)
    (op : BinOp)
    (later : Expr)
    (modifier : Option Modifier)
    (mod : Option Char)
    (modoff : Nat) :
    ScanState :=
  blockState (1 + (Expr.chain first op later).text.length) modifier
    (withModifier (withOp1 {} (Expr.splitLast first op later).2.1
        (1 + (Expr.splitLast first op later).1.text.length))
      mod modoff)

variable {first later : Expr} {op : BinOp}

/-- A chain in parentheses leaves its last operator. -/
theorem scanFrom_outer_chain
    (wellFormed : (Expr.chain first op later).WellFormed)
    (follows : Follows post)
    (remaining : body.drop 0 = (Expr.paren (Expr.chain first op later) modifier).text ++ post)
    (fits : (Expr.paren (Expr.chain first op later) modifier).text.length ≤ len) :
    ∃ mod modoff, scanFrom body len 0 {} =
        if (Expr.paren (Expr.chain first op later) modifier).text.length = len then
          some (outerBlock first op later modifier mod modoff)
        else
          scanFrom body len (Expr.paren (Expr.chain first op later) modifier).text.length
            { outerBlock first op later modifier mod modoff with
              blkmod := none } := by
  obtain ⟨opening, inside, closing, -⟩ := drop_paren remaining
  have lengths : (Expr.paren (Expr.chain first op later) modifier).text.length =
        0 + 1 + (Expr.chain first op later).text.length + (modifierText modifier).length + 1 := by
    simp only [Expr.text, length_cons, length_append]
    omega
  rw [lengths] at fits ⊢
  have innerFits : 0 + 1 + (Expr.chain first op later).text.length ≤ len := by omega
  obtain ⟨mod, modoff, innerScan⟩ := scanFrom_shallow_chain later first op (0 + 1) _ { pth := 1 }
      wellFormed inside innerFits rfl rfl
  refine ⟨some ')', 1 + (Expr.chain first op later).text.length, ?_⟩
  calc
    scanFrom body len 0 {} = scanFrom body len (0 + 1) { pth := 1 } :=
      scanFrom_step opening (by omega) (chklsigSwitch_open 0 {}) rfl (.inl rfl)
    _ = _ := innerScan
    _ = _ := scanFrom_close follows closing fits rfl rfl rfl rfl
    _ = _ := by simp only [zero_add, withModifier, withOp1, outerBlock]

/-- A term in parentheses loses them. -/
theorem chklsigSplit_paren_term
    (term : ¬ inner.IsChain)
    (remaining : text.drop expr = (Expr.paren inner modifier).text ++ post) :
    chklsigSplit text expr (expr + (Expr.paren inner modifier).text.length) = .strip := by
  obtain ⟨mod, modoff, scanned⟩ := scanFrom_outer_term term remaining (le_of_eq (zero_add _))
  have leading : charAt text expr = '(' := by exact charAt_of_drop (drop_paren remaining).1
  unfold chklsigSplit
  simp only [chklsigLoop_eq_scanFrom, scanned, zero_add, scanFrom_end]
  simp [withModifier, splitAtom, leading]

/-- A chain in parentheses is split at its last operator. -/
theorem chklsigSplit_paren_chain
    (wellFormed : (Expr.chain first op later).WellFormed)
    (follows : Follows post)
    (remaining : text.drop expr = (Expr.paren (Expr.chain first op later) modifier).text ++ post) :
    chklsigSplit text expr (expr + (Expr.paren (Expr.chain first op later) modifier).text.length) =
      .node (Expr.splitLast first op later).2.1.char (expr + 1)
        (expr + (1 + (Expr.splitLast first op later).1.text.length))
        (expr + (1 + (Expr.splitLast first op later).1.text.length) + 1)
        (expr + (1 + (Expr.chain first op later).text.length))
        (modifier.map fun m => m.cmp.char)
        ((modifier.map fun m => m.count.value).getD 0)
        ((modifier.bind fun m => m.distinct.map Numeral.value).getD 0) := by
  obtain ⟨mod, modoff, scanned⟩ := scanFrom_outer_chain wellFormed follows remaining le_rfl
  have lengths := congrArg length (Expr.splitLast_text later first op)
  simp only [length_append, length_cons] at lengths
  have notLast : 1 + (Expr.splitLast first op later).1.text.length + 1 ≠
        (Expr.paren (Expr.chain first op later) modifier).text.length := by
    rw [Expr.text, length_cons, length_append, length_cons]
    omega
  unfold chklsigSplit
  simp only [chklsigLoop_eq_scanFrom, scanned, ↓reduceIte]
  cases modifier with
  | none | some modifier =>
    simp [outerBlock, blockState, withModifier, withOp1, splitNode, notLast]

theorem chklsigSwitch_op_outer
    (op : BinOp)
    (i : Nat)
    (depth : state.pth = 0) :
    chklsigSwitch op.char i state = some { state with op := some op.char, opoff := i } := by
  cases op <;> simp [chklsigSwitch, BinOp.char, isModifier, depth]

theorem scanFrom_op_outer
    {rest : List Char}
    (atOp : body.drop i = op.char :: rest)
    (inRange : i < len)
    (depth : state.pth = 0) :
    scanFrom body len i state = some { state with op := some op.char, opoff := i } := by
  have fuelStep : len - i = (len - (i + 1)) + 1 := by omega
  unfold scanFrom
  rw [fuelStep]
  unfold chklsigLoop
  rw [if_pos inRange, zero_add, charAt_of_drop atOp, chklsigSwitch_op_outer op i depth]
  rfl

theorem scanFrom_outer_head
    (term : ¬ first.IsChain)
    (wellFormed : first.WellFormed)
    (follows : Follows post)
    (remaining : body.drop 0 = first.text ++ post)
    (fits : first.text.length < len) :
    ∃ state : ScanState, scanFrom body len 0 {} = scanFrom body len first.text.length state ∧
        state.pth = 0 ∧ state.blkmod = none := by
  have fitsFromStart : 0 + first.text.length ≤ len := by omega
  cases first with
  | id numeral modifier =>
    refine ⟨noteModifier (0 + numeral.digits.length) modifier {}, ?_, ?_⟩
    · rw [scanFrom_id numeral modifier rfl (.inl rfl) remaining fitsFromStart, zero_add]
    · cases modifier <;> exact ⟨rfl, rfl⟩
  | paren inner modifier =>
    cases inner with
    | chain first op later =>
      obtain ⟨mod, modoff, scanned⟩ := scanFrom_outer_chain wellFormed.1 follows remaining
          (le_of_lt fits)
      rw [if_neg (ne_of_lt fits)] at scanned
      exact ⟨_, scanned, by cases modifier <;> rfl, rfl⟩
    | id numeral innerModifier | paren deeper innerModifier =>
      obtain ⟨mod, modoff, scanned⟩ := scanFrom_outer_term id remaining fitsFromStart
      rw [zero_add] at scanned
      exact ⟨_, scanned, rfl, rfl⟩
  | chain first op later =>
    exact absurd trivial term

theorem BinOp.follows
    (op : BinOp)
    (rest : List Char) :
    Follows (op.char :: rest) := by
  intro c mem
  simp only [head?_cons, mem_def, some.injEq] at mem
  subst c
  cases op
  · exact .inl rfl
  · exact .inr (.inl rfl)

/-- A chain outside is split at its first operator. -/
theorem chklsigSplit_chain
    (wellFormed : (Expr.chain first op later).WellFormed)
    (remaining : text.drop expr = (Expr.chain first op later).text ++ post) :
    ∃ modval1 modval2, chklsigSplit text expr (expr + (Expr.chain first op later).text.length) =
        .node op.char expr (expr + first.text.length) (expr + first.text.length + 1)
          (expr + (Expr.chain first op later).text.length)
          none modval1 modval2 := by
  obtain ⟨leading, atOp, -⟩ := drop_chain remaining
  have start := leading
  have atOpInside : (text.drop expr).drop first.text.length =
        op.char :: (later.text ++ post) := by
    rw [drop_drop]
    exact atOp
  have lengths := chain_text_length first op later
  have firstPositive := first.text_length_pos
  have laterPositive := later.text_length_pos
  have inRange : first.text.length < (Expr.chain first op later).text.length := by omega
  have notLast : first.text.length + 1 ≠ (Expr.chain first op later).text.length := by omega
  have notFirst : first.text.length ≠ 0 := by omega
  obtain ⟨state, scanned, depth, noBlkmod⟩ :=
    scanFrom_outer_head wellFormed.1 wellFormed.2.1 (op.follows _) start inRange
  refine ⟨state.modval1, state.modval2, ?_⟩
  unfold chklsigSplit
  simp only [chklsigLoop_eq_scanFrom, scanned, scanFrom_op_outer atOpInside inRange depth]
  simp [splitNode, depth, noBlkmod, notFirst, notLast]

/-! What an evaluating run computes. -/

/-- The outcome of an operator over two outcomes. -/
def applyOp
    (op : BinOp)
    (modifier : Option Modifier)
    (left right : Outcome) :
    Outcome :=
  match modifier with
  | none => chklsigNode false 0 0 op.char none 0 0 left right
  | some modifier =>
    chklsigNode false 0 0 op.char (some modifier.cmp.char) modifier.count.value
      ((modifier.distinct.map Numeral.value).getD 0) left right

/-- A bare chain: the first operator is applied to everything behind it. -/
def rightChain : Outcome → List (BinOp × Outcome) → Outcome
  | value, [] => value
  | value, (op, next) :: rest =>
    applyOp op none value (rightChain next rest)

/-- A parenthesised chain: the last operator is applied to a bare chain. -/
def blockChain
    (modifier : Option Modifier)
    (value : Outcome)
    (rest : List (BinOp × Outcome)) :
    Outcome :=
  match rest.getLast? with
  | none => value
  | some (op, last) =>
    applyOp op modifier (rightChain value rest.dropLast) last

namespace Expr

/-- Outcomes of the terms of a chain, with the operators between them. -/
def values (lsigcnt : Nat → Nat) : Expr → Outcome × List (BinOp × Outcome)
  | .id numeral modifier =>
    (chklsigAtom lsigcnt false 0 0 numeral.value
      (modifier.map fun m => (m.cmp.char, some m.count.value)), [])
  | .paren inner modifier =>
    (blockChain modifier (inner.values lsigcnt).1 (inner.values lsigcnt).2, [])
  | .chain first op rest =>
    ((first.values lsigcnt).1, (op, (rest.values lsigcnt).1) :: (rest.values lsigcnt).2)

/-- What the evaluating run computes for an expression. -/
def meaning (lsigcnt : Nat → Nat) (expression : Expr) : Outcome :=
  rightChain (expression.values lsigcnt).1 (expression.values lsigcnt).2

end Expr

/-- An operator on two values has a value. -/
theorem applyOp_ret
    (op : BinOp)
    (modifier : Option Modifier)
    (left right : Outcome) :
    (applyOp op modifier left right).ret ≠ -1 := by
  cases modifier with
  | none | some modifier => exact (chklsigNode_evaluated ..).1

theorem rightChain_ret
    {value : Outcome}
    (rest : List (BinOp × Outcome))
    (evaluated : value.ret ≠ -1) :
    (rightChain value rest).ret ≠ -1 := by
  cases rest with
  | nil => exact evaluated
  | cons next rest => exact applyOp_ret _ _ _ _

theorem Expr.values_ret
    (lsigcnt : Nat → Nat)
    (expression : Expr) :
    (expression.values lsigcnt).1.ret ≠ -1 := by
  induction expression with
  | id numeral modifier =>
    cases modifier <;> simp only [Expr.values, chklsigAtom,
      map_none, map_some, Bool.false_eq_true, ↓reduceIte] <;>
      split_ifs <;> simp
  | paren inner modifier ih =>
    simp only [Expr.values, blockChain]
    split
    · exact ih
    · exact applyOp_ret _ _ _ _
  | chain first op rest firstHypothesis _ =>
    exact firstHypothesis

/-- Every expression has a value. -/
theorem Expr.meaning_ret
    (lsigcnt : Nat → Nat)
    (expression : Expr) :
    (expression.meaning lsigcnt).ret ≠ -1 :=
  rightChain_ret _ (expression.values_ret lsigcnt)

variable {expression : Expr}

section

variable (lsigcnt : Nat → Nat)

include lsigcnt

theorem Expr.values_term (term : ¬ expression.IsChain) : (expression.values lsigcnt).2 = [] := by
  cases expression with
  | id numeral modifier | paren inner modifier => rfl
  | chain first op rest => exact absurd trivial term

theorem Expr.meaning_term
    (term : ¬ expression.IsChain) :
    expression.meaning lsigcnt = (expression.values lsigcnt).1 := by
  rw [Expr.meaning, Expr.values_term lsigcnt term]
  rfl

/-- A chain outside is read from the right. -/
theorem Expr.meaning_chain
    (firstTerm : ¬ first.IsChain) :
    (Expr.chain first op later).meaning lsigcnt =
      applyOp op none (first.meaning lsigcnt) (later.meaning lsigcnt) := by
  rw [Expr.meaning_term lsigcnt firstTerm]
  rfl

/-- The last operand of a chain is a term. -/
theorem Expr.splitLast_spec
    (later : Expr)
    (first : Expr)
    (op : BinOp)
    (wellFormed : (Expr.chain first op later).WellFormed) :
    (Expr.splitLast first op later).1.WellFormed ∧
      (Expr.splitLast first op later).2.2.WellFormed ∧
      ¬ (Expr.splitLast first op later).2.2.IsChain ∧
      (Expr.chain first op later).values lsigcnt =
        (((Expr.splitLast first op later).1.values lsigcnt).1,
          ((Expr.splitLast first op later).1.values lsigcnt).2 ++
            [((Expr.splitLast first op later).2.1, ((Expr.splitLast first op later).2.2.values
                lsigcnt).1)]) := by
  induction later generalizing first op with
  | id numeral modifier | paren inner modifier _ =>
    refine ⟨wellFormed.2.1, wellFormed.2.2, not_false, ?_⟩
    simp [Expr.splitLast, Expr.values, Expr.values_term lsigcnt wellFormed.1]
  | chain second nextOp further _ furtherHypothesis =>
    obtain ⟨firstTerm, firstWellFormed, laterWellFormed⟩ := wellFormed
    obtain ⟨initWellFormed, lastWellFormed, lastTerm, valuesShape⟩ :=
      furtherHypothesis second nextOp laterWellFormed
    refine ⟨⟨firstTerm, firstWellFormed, initWellFormed⟩, lastWellFormed, lastTerm, ?_⟩
    rw [Expr.values, valuesShape]
    rfl

/-- A modifier behind a term in parentheses counts for nothing. -/
theorem Expr.meaning_paren_term
    (modifier : Option Modifier)
    (term : ¬ inner.IsChain) :
    (Expr.paren inner modifier).meaning lsigcnt = inner.meaning lsigcnt := by
  have parenTerm : ¬ (Expr.paren inner modifier).IsChain := not_false
  rw [Expr.meaning_term lsigcnt parenTerm, Expr.meaning_term lsigcnt term,
    Expr.values, Expr.values_term lsigcnt term]
  rfl

/-- One behind a chain counts for its last operator. -/
theorem Expr.meaning_paren_chain
    (modifier : Option Modifier)
    (wellFormed : (Expr.chain first op later).WellFormed) :
    (Expr.paren (Expr.chain first op later) modifier).meaning lsigcnt =
      applyOp (Expr.splitLast first op later).2.1 modifier
        ((Expr.splitLast first op later).1.meaning lsigcnt)
        ((Expr.splitLast first op later).2.2.meaning lsigcnt) := by
  obtain ⟨-, -, lastTerm, valuesShape⟩ := Expr.splitLast_spec lsigcnt later first op wellFormed
  have term : ¬ (Expr.paren (Expr.chain first op later) modifier).IsChain := not_false
  rw [Expr.meaning_term lsigcnt term, Expr.values, valuesShape, Expr.meaning_term lsigcnt lastTerm]
  simp [blockChain, Expr.meaning]

end

variable {lsigcnt : Nat → Nat} {fuel : Nat}

/-- The code computes the operator it has split at. -/
theorem cliAcChklsig_applyOp
    {finish lstart lend rstart rend modval1 modval2 : Nat}
    {blkmod : Option Char}
    {left right : Outcome}
    (modifier : Option Modifier)
    (splits : chklsigSplit text expr finish =
        .node op.char lstart lend rstart rend blkmod modval1 modval2)
    (leftRuns : cliAcChklsig text lsigcnt false fuel lstart lend 0 0 = some left)
    (rightRuns : cliAcChklsig text lsigcnt false fuel rstart rend 0 0 = some right)
    (leftRet : left.ret ≠ -1)
    (rightRet : right.ret ≠ -1)
    (applies : chklsigNode false 0 0 op.char blkmod modval1 modval2 left right =
        applyOp op modifier left right) :
    cliAcChklsig text lsigcnt false (fuel + 1) expr finish 0 0 =
      some (applyOp op modifier left right) := by
  unfold cliAcChklsig
  simp only [splits, leftRuns, rightRuns, leftRet, rightRet, Option.bind_some, ↓reduceIte]
  rw [applies]

theorem Follows.close (rest : List Char) : Follows (')' :: rest) := by
  intro c mem
  simp only [head?_cons, mem_def, some.injEq] at mem
  exact .inr (.inr mem.symm)

/-- What it means that a run on every range of at most `fuel` is right. -/
def ComputesMeaning (text : List Char) (lsigcnt : Nat → Nat) (fuel : Nat) : Prop :=
  ∀ (expression : Expr) (expr : Nat) (post : List Char), expression.WellFormed → Follows post →
    text.drop expr = expression.text ++ post →
    expression.text.length ≤ fuel →
    cliAcChklsig text lsigcnt false fuel expr (expr + expression.text.length) 0 0 =
      some (expression.meaning lsigcnt)

/-- A chain is right if its parts are. -/
theorem ComputesMeaning.chain
    (computes : ComputesMeaning text lsigcnt fuel)
    (wellFormed : (Expr.chain first op later).WellFormed)
    (follows : Follows post)
    (remaining : text.drop expr = (Expr.chain first op later).text ++ post)
    (enough : (Expr.chain first op later).text.length ≤ fuel + 1) :
    cliAcChklsig text lsigcnt false (fuel + 1)
        expr (expr + (Expr.chain first op later).text.length) 0 0 =
      some ((Expr.chain first op later).meaning lsigcnt) := by
  obtain ⟨modval1, modval2, splits⟩ := chklsigSplit_chain wellFormed remaining
  obtain ⟨leading, -, behind⟩ := drop_chain remaining
  have lengths := chain_text_length first op later
  have laterEnd : expr + (Expr.chain first op later).text.length =
        expr + first.text.length + 1 + later.text.length := by
    omega
  have leftRuns := computes first expr _ wellFormed.2.1 (op.follows _) leading (by omega)
  have rightRuns := computes later (expr + first.text.length + 1) post wellFormed.2.2
      follows behind (by omega)
  rw [← laterEnd] at rightRuns
  rw [Expr.meaning_chain lsigcnt wellFormed.1]
  exact cliAcChklsig_applyOp none splits leftRuns rightRuns
    (first.meaning_ret lsigcnt) (later.meaning_ret lsigcnt) rfl

/-- So is a chain in parentheses. -/
theorem ComputesMeaning.paren_chain
    (computes : ComputesMeaning text lsigcnt fuel)
    (wellFormed : (Expr.chain first op later).WellFormed)
    (follows : Follows post)
    (remaining : text.drop expr = (Expr.paren (Expr.chain first op later) modifier).text ++ post)
    (enough : (Expr.paren (Expr.chain first op later) modifier).text.length ≤ fuel + 1) :
    cliAcChklsig text lsigcnt false (fuel + 1) expr
        (expr + (Expr.paren (Expr.chain first op later) modifier).text.length)
        0 0 =
      some ((Expr.paren (Expr.chain first op later) modifier).meaning lsigcnt) := by
  have splits := chklsigSplit_paren_chain wellFormed follows remaining
  obtain ⟨initWellFormed, lastWellFormed, -, -⟩ :=
    Expr.splitLast_spec lsigcnt later first op wellFormed
  have textShape := Expr.splitLast_text later first op
  rw [Expr.meaning_paren_chain lsigcnt modifier wellFormed]
  obtain ⟨-, inside, -, -⟩ := drop_paren remaining
  generalize Expr.splitLast first op later = parts at *
  obtain ⟨init, lastOp, last⟩ := parts
  have lengths := congrArg length textShape
  simp only [length_append, length_cons] at lengths
  rw [Expr.text, length_cons, length_append, length_cons] at enough
  rw [textShape, append_assoc] at inside
  have atLast : text.drop (expr + (1 + init.text.length) + 1) =
        last.text ++ ')' :: (modifierText modifier ++ post) := by
    rw [← add_assoc expr 1]
    exact drop_next (drop_after inside)
  have leftRuns := computes init (expr + 1) _ initWellFormed (lastOp.follows _) inside (by omega)
  have rightRuns := computes last (expr + (1 + init.text.length) + 1) _ lastWellFormed
      (Follows.close _) atLast (by omega)
  have initEnd : expr + 1 + init.text.length = expr + (1 + init.text.length) := by omega
  have lastEnd : expr + (1 + init.text.length) + 1 + last.text.length =
        expr + (1 + (Expr.chain first op later).text.length) := by
    omega
  rw [initEnd] at leftRuns
  rw [lastEnd] at rightRuns
  refine cliAcChklsig_applyOp modifier splits leftRuns rightRuns
    (init.meaning_ret lsigcnt) (last.meaning_ret lsigcnt) ?_
  cases modifier <;> rfl

/-- So is a term in parentheses. -/
theorem ComputesMeaning.paren_term
    (computes : ComputesMeaning text lsigcnt fuel)
    (wellFormed : (Expr.paren inner modifier).WellFormed)
    (term : ¬ inner.IsChain)
    (remaining : text.drop expr = (Expr.paren inner modifier).text ++ post)
    (enough : (Expr.paren inner modifier).text.length ≤ fuel + 1) :
    cliAcChklsig text lsigcnt false (fuel + 1) expr
        (expr + (Expr.paren inner modifier).text.length) 0 0 =
      some ((Expr.paren inner modifier).meaning lsigcnt) := by
  have noModifier : modifier = none := by
    by_contra present
    exact term (wellFormed.2 present)
  subst noModifier
  have splits := chklsigSplit_paren_term term remaining
  obtain ⟨-, inside, -, -⟩ := drop_paren remaining
  have lengths : (Expr.paren inner none).text.length = inner.text.length + 2 := by
    simp [Expr.text, modifierText]
  rw [lengths] at enough splits ⊢
  have innerRuns := computes inner (expr + 1) _ wellFormed.1 (Follows.close _) inside (by omega)
  have innerEnd : expr + 1 + inner.text.length = expr + (inner.text.length + 2) - 1 := by omega
  rw [innerEnd] at innerRuns
  rw [Expr.meaning_paren_term lsigcnt none term]
  unfold cliAcChklsig
  rw [splits]
  exact innerRuns

/--
One invocation on the range of a well-formed expression computes its meaning.
The induction is on the fuel: the operands of a parenthesised chain are not
parts of the syntax tree, but their texts are shorter.
-/
theorem cliAcChklsig_meaning
    (text : List Char)
    (lsigcnt : Nat → Nat)
    (fuel : Nat) :
    ComputesMeaning text lsigcnt fuel := by
  induction fuel with
  | zero =>
    intro expression expr post _ _ _ enough
    have positive := expression.text_length_pos
    omega
  | succ fuel ih =>
    intro expression expr post wellFormed follows remaining enough
    cases expression with
    | id numeral modifier =>
      unfold cliAcChklsig
      rw [chklsigSplit_id numeral modifier follows remaining]
      rfl
    | chain first op later =>
      exact ih.chain wellFormed follows remaining enough
    | paren inner modifier =>
      cases inner with
      | chain first op later =>
        exact ih.paren_chain wellFormed.1 follows remaining enough
      | id numeral innerModifier | paren deeper innerModifier =>
        exact ih.paren_term wellFormed not_false remaining enough

/-- `cli_ac_chklsig` computes the meaning of every expression. -/
theorem evalLsig_text
    (wellFormed : expression.WellFormed)
    (lsigcnt : Nat → Nat) :
    evalLsig expression.text lsigcnt = expression.meaning lsigcnt := by
  have follows : Follows [] := by
    intro c mem
    cases mem
  have computes := cliAcChklsig_meaning expression.text lsigcnt
      (chklsigFuel expression.text) expression 0 [] wellFormed follows
      (append_nil expression.text).symm
      (by unfold chklsigFuel; omega)
  rw [zero_add] at computes
  rw [evalLsig, computes, Option.getD_some]

end LibClamav.Lsig
