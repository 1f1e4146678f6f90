import LibClamav.LsigMeaning

namespace LibClamav.Lsig

open CText List

/-!
# Parentheses around logical expressions

The two readings of an operator chain agree when all its operators are the
same.  A chain of mixed operators with independent operands tells them apart:
the operands that leave the last operator undecided decide the other one.
-/

variable {value last : Outcome} {op lastOp : BinOp} {expression : Expr} (lsigcnt : Nat → Nat)

/-- A false outcome carries no count and no identifiers. -/
def Outcome.Normal (outcome : Outcome) : Prop :=
  (outcome.ret = 0 ∧ outcome.cnt = 0 ∧ outcome.ids = 0) ∨ outcome.ret = 1

theorem applyOp_normal
    (op : BinOp)
    (modifier : Option Modifier)
    (left right : Outcome) :
    (applyOp op modifier left right).Normal := by
  cases modifier with
  | none | some modifier =>
    simp only [applyOp, chklsigNode, Outcome.Normal]
    split_ifs <;> simp_all

theorem rightChain_normal
    (rest : List (BinOp × Outcome))
    (normal : value.Normal) :
    (rightChain value rest).Normal := by
  cases rest with
  | nil => exact normal
  | cons next rest => exact applyOp_normal _ _ _ _

/-- All values are 0 without counts, or 1. -/
theorem Expr.values_normal
    (expression : Expr) :
    (expression.values lsigcnt).1.Normal ∧
      ∀ operand ∈ (expression.values lsigcnt).2, operand.2.Normal := by
  induction expression with
  | id numeral modifier =>
    refine ⟨?_, by simp [Expr.values]⟩
    cases modifier <;> simp only [Expr.values, chklsigAtom,
      Option.map_none, Option.map_some, Bool.false_eq_true, ↓reduceIte,
      Outcome.Normal] <;>
      split_ifs <;> simp
  | paren inner modifier ih =>
    refine ⟨?_, by simp [Expr.values]⟩
    simp only [Expr.values, blockChain]
    split
    · exact ih.1
    · exact applyOp_normal _ _ _ _
  | chain first op rest firstHypothesis restHypothesis =>
    refine ⟨firstHypothesis.1, ?_⟩
    intro operand mem
    rcases mem_cons.mp mem with isNext | isLater
    · subst operand
      exact restHypothesis.1
    · exact restHypothesis.2 operand isLater

theorem Expr.values_operators
    (expression : Expr) :
    (expression.values lsigcnt).2.map Prod.fst = expression.operators := by
  induction expression with
  | id numeral modifier | paren inner modifier _ => rfl
  | chain first op rest _ restHypothesis =>
    simp only [Expr.values, Expr.operators, map_cons, restHypothesis]

/-- An operator without a modifier is associative. -/
theorem applyOp_assoc
    (op : BinOp)
    {a b c : Outcome}
    (aNormal : a.Normal)
    (bNormal : b.Normal)
    (cNormal : c.Normal) :
    applyOp op none (applyOp op none a b) c = applyOp op none a (applyOp op none b c) := by
  rcases aNormal with ⟨aRet, aCnt, aIds⟩ | aRet <;>
    rcases bNormal with ⟨bRet, bCnt, bIds⟩ | bRet <;>
    rcases cNormal with ⟨cRet, cCnt, cIds⟩ | cRet <;>
    cases op <;>
    simp_all [applyOp, chklsigNode, combineTruth, BinOp.char, addCount, Nat.or_assoc, add_assoc]

/-- A chain of one operator may be read from either end. -/
theorem rightChain_snoc
    (lastNormal : last.Normal)
    (rest : List (BinOp × Outcome))
    (value : Outcome)
    (valueNormal : value.Normal)
    (uniform : ∀ operand ∈ rest, operand.1 = op ∧ operand.2.Normal) :
    rightChain value (rest ++ [(op, last)]) = applyOp op none (rightChain value rest) last := by
  induction rest generalizing value with
  | nil =>
    rfl
  | cons next rest ih =>
    obtain ⟨nextOp, nextNormal⟩ := uniform next (by simp)
    have restUniform : ∀ operand ∈ rest, operand.1 = op ∧ operand.2.Normal := by
      intro operand mem
      exact uniform operand (by simp [mem])
    obtain ⟨nextOperator, nextValue⟩ := next
    subst nextOp
    calc
      rightChain value ((nextOperator, nextValue) :: rest ++ [(nextOperator, last)]) =
          applyOp nextOperator none value
            (rightChain nextValue (rest ++ [(nextOperator, last)])) := rfl
      _ = applyOp nextOperator none value
            (applyOp nextOperator none (rightChain nextValue rest) last) := by
        rw [ih nextValue nextNormal restUniform]
      _ = applyOp nextOperator none
            (applyOp nextOperator none value (rightChain nextValue rest)) last :=
        (applyOp_assoc nextOperator valueNormal (rightChain_normal rest nextNormal) lastNormal).symm

/-- All operators outside parentheses are the same. -/
def Expr.Uniform (expression : Expr) : Prop := ∃ op, ∀ other ∈ expression.operators, other = op

/-- Parentheses around such a chain change nothing. -/
theorem Expr.meaning_paren_uniform
    (wellFormed : expression.WellFormed)
    (uniform : expression.Uniform) :
    (Expr.paren expression none).meaning lsigcnt = expression.meaning lsigcnt := by
  cases expression with
  | id numeral modifier | paren inner modifier =>
    exact Expr.meaning_paren_term lsigcnt none not_false
  | chain first op later =>
    obtain ⟨common, allCommon⟩ := uniform
    obtain ⟨-, -, lastTerm, valuesShape⟩ := Expr.splitLast_spec lsigcnt later first op wellFormed
    have operators := Expr.values_operators lsigcnt (Expr.chain first op later)
    obtain ⟨valueNormal, restNormal⟩ := Expr.values_normal lsigcnt (Expr.chain first op later)
    rw [Expr.meaning_paren_chain lsigcnt none wellFormed,
      Expr.meaning_term lsigcnt lastTerm, Expr.meaning, Expr.meaning,
      valuesShape]
    rw [valuesShape] at operators valueNormal restNormal
    have restUniform : ∀ operand ∈ ((Expr.splitLast first op later).1.values lsigcnt).2 ++
              [((Expr.splitLast first op later).2.1,
                ((Expr.splitLast first op later).2.2.values lsigcnt).1)],
          operand.1 = common ∧ operand.2.Normal := by
      intro operand mem
      refine ⟨allCommon operand.1 ?_, restNormal operand mem⟩
      rw [← operators]
      exact mem_map_of_mem mem
    obtain ⟨lastCommon, lastNormal⟩ := restUniform _ (mem_append_right _ (mem_singleton.mpr rfl))
    rw [lastCommon]
    refine (rightChain_snoc lastNormal _ _ valueNormal ?_).symm
    intro operand mem
    exact restUniform operand (mem_append_left _ mem)

/-- Whether an outcome counts as true. -/
def Outcome.holds (outcome : Outcome) : Bool := outcome.ret ≠ 0

/-- An operator on truth values. -/
def BinOp.apply : BinOp → Bool → Bool → Bool
  | .and => fun left right => left && right
  | .or => fun left right => left || right

/-- The truth value that decides an operator alone. -/
def BinOp.absorbing : BinOp → Bool
  | .and => false
  | .or => true

/-- The operators are those of logic. -/
theorem applyOp_holds
    (op : BinOp)
    (left right : Outcome) :
    (applyOp op none left right).holds =
      op.apply left.holds right.holds := by
  cases op <;>
    by_cases leftHolds : left.ret = 0 <;>
    by_cases rightHolds : right.ret = 0 <;>
    simp [applyOp, chklsigNode, combineTruth, Outcome.holds, BinOp.char,
      BinOp.apply, leftHolds, rightHolds]

/--
Operands that all leave the last operator undecided decide the other one, so a
bare chain with another operator in it never gets to its last operand.
-/
theorem rightChain_holds_mixed
    (front : List (BinOp × Outcome))
    (value : Outcome)
    (valueHolds : value.holds = !lastOp.absorbing)
    (frontHolds : ∀ operand ∈ front, operand.2.holds = !lastOp.absorbing)
    (mixed : ∃ operand ∈ front, operand.1 ≠ lastOp) :
    (rightChain value (front ++ [(lastOp, last)])).holds = !lastOp.absorbing := by
  induction front generalizing value with
  | nil =>
    obtain ⟨operand, mem, -⟩ := mixed
    cases mem
  | cons next front ih =>
    obtain ⟨nextOp, nextValue⟩ := next
    have unfolded : (rightChain value ((nextOp, nextValue) :: front ++ [(lastOp, last)])).holds =
          nextOp.apply value.holds (rightChain nextValue (front ++ [(lastOp, last)])).holds :=
      applyOp_holds nextOp value _
    rw [unfolded, valueHolds]
    by_cases same : nextOp = lastOp
    · have laterMixed : ∃ operand ∈ front, operand.1 ≠ lastOp := by
        obtain ⟨operand, mem, differs⟩ := mixed
        rcases mem_cons.mp mem with isNext | isLater
        · subst operand
          exact absurd same differs
        · exact ⟨operand, isLater, differs⟩
      rw [ih nextValue (frontHolds (nextOp, nextValue) (by simp))
        (fun operand mem => frontHolds operand (by simp [mem]))
        laterMixed, same]
      cases lastOp <;> rfl
    · -- the other operator is decided by its left operand
      cases nextOp <;> cases lastOp <;> simp_all [BinOp.apply, BinOp.absorbing]

/-- The same truth value, the same count and the same identifiers. -/
def Outcome.SameVerdict (left right : Outcome) : Prop :=
  left.ret = right.ret ∧ left.cnt = right.cnt ∧ left.ids = right.ids

/-- Parentheses around an expression make no difference to its evaluation. -/
def ParenthesesNeutral (expression : Expr) : Prop :=
  ∀ lsigcnt : Nat → Nat, (∀ id, lsigcnt id < 2 ^ 32) →
    (evalLsig ('(' :: (expression.text ++ [')'])) lsigcnt).SameVerdict
      (evalLsig expression.text lsigcnt)

/-- The truth values of the operands of a chain. -/
def Expr.operandTruths (lsigcnt : Nat → Nat) (expression : Expr) : List Bool :=
  (expression.values lsigcnt).1.holds ::
    (expression.values lsigcnt).2.map fun operand => operand.2.holds

/-- Suitable counters give the operands any truth values. -/
def Expr.Independent (expression : Expr) : Prop :=
  ∀ truths : List Bool, truths.length = expression.operators.length + 1 → ∃ lsigcnt : Nat → Nat,
      (∀ id, lsigcnt id < 2 ^ 32) ∧ expression.operandTruths lsigcnt = truths

theorem evalLsig_parentheses
    (wellFormed : expression.WellFormed)
    (lsigcnt : Nat → Nat) :
    evalLsig ('(' :: (expression.text ++ [')'])) lsigcnt =
      (Expr.paren expression none).meaning lsigcnt := by
  have parenWellFormed : (Expr.paren expression none).WellFormed :=
    ⟨wellFormed, fun present => absurd rfl present⟩
  rw [← evalLsig_text parenWellFormed lsigcnt]
  rfl

/-- A mixed chain differs by the end it is read from. -/
theorem rightChain_ret_mixed
    {front : List (BinOp × Outcome)}
    (undecided : ∀ truth ∈ value.holds :: front.map fun operand => operand.2.holds,
        truth = !lastOp.absorbing)
    (lastHolds : last.holds = lastOp.absorbing)
    (mixed : ∃ operand ∈ front, operand.1 ≠ lastOp) :
    (applyOp lastOp none (rightChain value front) last).ret ≠
      (rightChain value (front ++ [(lastOp, last)])).ret := by
  have bareHolds : (rightChain value (front ++ [(lastOp, last)])).holds = !lastOp.absorbing :=
    rightChain_holds_mixed front value (undecided _ (by simp))
      (fun operand mem => undecided _ (mem_cons_of_mem _ (mem_map_of_mem mem)))
      mixed
  have blockHolds : (applyOp lastOp none (rightChain value front) last).holds =
        lastOp.absorbing := by
    rw [applyOp_holds, lastHolds]
    cases lastOp <;> simp [BinOp.apply, BinOp.absorbing]
  intro sameRet
  have sameHolds : (applyOp lastOp none (rightChain value front) last).holds =
        (rightChain value (front ++ [(lastOp, last)])).holds := by
    simp only [Outcome.holds, sameRet]
  rw [blockHolds, bareHolds] at sameHolds
  cases lastOp <;> cases sameHolds

/-- Parentheses around a mixed chain change it. -/
theorem parentheses_differ
    {first later : Expr}
    {lsigcnt : Nat → Nat}
    (wellFormed : (Expr.chain first op later).WellFormed)
    (mixed : ¬ (Expr.chain first op later).Uniform)
    (truths : (Expr.chain first op later).operandTruths lsigcnt =
        replicate (Expr.chain first op later).operators.length
            (!(Expr.splitLast first op later).2.1.absorbing) ++
          [(Expr.splitLast first op later).2.1.absorbing]) :
    ((Expr.paren (Expr.chain first op later) none).meaning lsigcnt).ret ≠
      ((Expr.chain first op later).meaning lsigcnt).ret := by
  obtain ⟨-, -, lastTerm, valuesShape⟩ := Expr.splitLast_spec lsigcnt later first op wellFormed
  have operators := Expr.values_operators lsigcnt (Expr.chain first op later)
  rw [Expr.meaning_paren_chain lsigcnt none wellFormed,
    Expr.meaning_term lsigcnt lastTerm, Expr.meaning, Expr.meaning,
    valuesShape]
  rw [Expr.operandTruths, ← operators, valuesShape] at truths
  rw [valuesShape] at operators
  simp only [map_append, map_cons, map_nil, length_append,
    length_map, length_cons, length_nil, ← cons_append]
    at truths
  have sides := append_inj' truths rfl
  refine rightChain_ret_mixed ?_ (head_eq_of_cons_eq sides.2) ?_
  · intro truth mem
    rw [sides.1] at mem
    exact eq_of_mem_replicate mem
  by_contra allSame
  refine mixed ⟨(Expr.splitLast first op later).2.1, ?_⟩
  intro other mem
  rw [← operators, map_append] at mem
  rcases mem_append.mp mem with inFront | isLast
  · obtain ⟨operand, operandMember, rfl⟩ := mem_map.mp inFront
    by_contra differs
    exact allSame ⟨operand, operandMember, differs⟩
  · simpa using isLast

/--
Parentheses around a well-formed expression are neutral when its operators
outside parentheses are all the same, and when its operands are independent
only then.
-/
theorem parentheses_neutral_iff_uniform
    (expression : Expr)
    (wellFormed : expression.WellFormed) :
    (expression.Uniform → ParenthesesNeutral expression) ∧ (expression.Independent →
        (ParenthesesNeutral expression ↔ expression.Uniform)) := by
  have sufficient : expression.Uniform → ParenthesesNeutral expression := by
    intro uniform lsigcnt _
    rw [evalLsig_parentheses wellFormed, evalLsig_text wellFormed,
      Expr.meaning_paren_uniform lsigcnt wellFormed uniform]
    exact ⟨rfl, rfl, rfl⟩
  refine ⟨sufficient, ?_⟩
  intro independent
  refine ⟨?_, sufficient⟩
  intro neutral
  by_contra mixed
  cases expression with
  | id numeral modifier | paren inner modifier =>
    exact mixed ⟨.and, by simp [Expr.operators]⟩
  | chain first op later =>
    obtain ⟨lsigcnt, bounded, truths⟩ := independent
        (replicate (Expr.chain first op later).operators.length
            (!(Expr.splitLast first op later).2.1.absorbing) ++
          [(Expr.splitLast first op later).2.1.absorbing]) (by simp)
    have same := (neutral lsigcnt bounded).1
    rw [evalLsig_parentheses wellFormed, evalLsig_text wellFormed] at same
    exact parentheses_differ wellFormed mixed truths same

/-- The expression `0&1|2`. -/
def mixedExpression : Expr := .chain (.id ⟨['0'], by decide, by simp⟩ none) .and
    (.chain (.id ⟨['1'], by decide, by simp⟩ none) .or (.id ⟨['2'], by decide, by simp⟩ none))

theorem mixedExpression_wellFormed : mixedExpression.WellFormed :=
  ⟨not_false, trivial, not_false, trivial, trivial⟩

/-- Counters with the given truth values of the first three subsignatures. -/
def threeCounters (truths : List Bool) (id : Nat) : Nat :=
  if truths.getD id false then 1 else 0

theorem mixedExpression_independent : mixedExpression.Independent := by
  intro truths three
  refine ⟨threeCounters truths, ?_, ?_⟩
  · intro id
    unfold threeCounters
    split <;> decide
  · match truths, three with
    | [a, b, c], _ =>
      cases a <;> cases b <;> cases c <;> rfl

/-- Its operands are independent, and it mixes two operators. -/
theorem mixedExpression_not_neutral : mixedExpression.WellFormed ∧ mixedExpression.Independent ∧
      ¬ ParenthesesNeutral mixedExpression := by
  refine ⟨mixedExpression_wellFormed, mixedExpression_independent, ?_⟩
  intro neutral
  obtain ⟨op, same⟩ := ((parentheses_neutral_iff_uniform mixedExpression
      mixedExpression_wellFormed).2 mixedExpression_independent).mp neutral
  have isAnd := same .and (by decide)
  have isOr := same .or (by decide)
  exact absurd (isAnd.trans isOr.symm) (by decide)

/-- With only the subsignatures 1 and 2 matched, `0&1|2` and `(0&1|2)` differ. -/
theorem mixedExpression_evaluates_differently :
    evalLsig "0&1|2".toList (threeCounters [false, true, true]) = ⟨0, 0, 0, [0, 1, 2]⟩ ∧
      evalLsig "(0&1|2)".toList (threeCounters [false, true, true]) = ⟨1, 1, 4, [0, 1, 2]⟩ := by
  decide

/-- No modified block, and operators of one kind in every block -/
def Expr.Regular : Expr → Prop
  | .id .. => True
  | .paren inner modifier => modifier = none ∧ inner.Uniform ∧ inner.Regular
  | .chain first _ rest => first.Regular ∧ rest.Regular

/-- The Boolean reading of an expression; a chain is read from the right. -/
def Expr.truth (lsigcnt : Nat → Nat) : Expr → Bool
  | .id numeral none => lsigcnt numeral.value ≠ 0
  | .id numeral (some m) => modifierHolds m.cmp.char (lsigcnt numeral.value) m.count.value
  | .paren inner _ => inner.truth lsigcnt
  | .chain first op rest => op.apply (first.truth lsigcnt) (rest.truth lsigcnt)

/-- An operator on two truth values returns 1 or 0. -/
theorem applyOp_ret_eq
    {left right : Outcome}
    {leftTruth rightTruth : Bool}
    (op : BinOp)
    (leftRet : left.ret = if leftTruth then 1 else 0)
    (rightRet : right.ret = if rightTruth then 1 else 0) :
    (applyOp op none left right).ret =
      if op.apply leftTruth rightTruth then 1 else 0 := by
  cases op <;> cases leftTruth <;> cases rightTruth <;>
    simp [applyOp, chklsigNode, combineTruth, BinOp.char, BinOp.apply, leftRet, rightRet]

/-- A regular expression is evaluated to its Boolean reading, as 1 or 0. -/
theorem evalLsig_holds
    (lsigcnt : Nat → Nat)
    (expression : { expression : Expr // expression.WellFormed ∧ expression.Regular }) :
    (evalLsig expression.1.text lsigcnt).ret =
      if expression.1.truth lsigcnt then 1 else 0 := by
  obtain ⟨expression, wellFormed, regular⟩ := expression
  rw [evalLsig_text wellFormed]
  induction expression with
  | id numeral modifier =>
      cases modifier <;>
        simp only [Expr.meaning, Expr.values, rightChain, chklsigAtom, Expr.truth,
          Option.map] <;>
        split_ifs <;> simp_all
  | paren inner modifier inductionHypothesis =>
      obtain ⟨rfl, uniform, regular⟩ := regular
      rw [Expr.meaning_paren_uniform lsigcnt wellFormed.1 uniform]
      exact inductionHypothesis wellFormed.1 regular
  | chain first op rest firstHypothesis restHypothesis =>
      rw [Expr.meaning_chain lsigcnt wellFormed.1]
      exact applyOp_ret_eq op
        (firstHypothesis wellFormed.2.1 regular.1)
        (restHypothesis wellFormed.2.2 regular.2)

end LibClamav.Lsig
