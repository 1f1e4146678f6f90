import LibClamav.CText

namespace LibClamav.Lsig

open CText

/-!
# Logical signature expressions

`cli_ac_chklsig` both validates a logical expression (`parse_only`) and
evaluates it over the subsignature counters of one scan.  It works on a
sub-range `expr .. end` of one terminated string, and its conversions may read
past `end`, so the model keeps the whole string and passes the two indices.

One invocation is cut in two: `chklsigSplit` is the part that only looks at
the text, and `cliAcChklsig` recurses on the pieces it names.
-/

variable {i len expr finish : Nat} {text : List Char}

/-- The local variables of the scanning loop of `cli_ac_chklsig`. -/
structure ScanState where
  pth : Nat := 0
  op : Option Char := none
  opoff : Nat := 0
  op1 : Option Char := none
  op1off : Nat := 0
  mod : Option Char := none
  modoff : Nat := 0
  blkend : Nat := 0
  blkmod : Option Char := none
  modval1 : Nat := 0
  modval2 : Nat := 0
  deriving Repr, DecidableEq

/-- The three comparison characters that may follow an operand. -/
def isModifier (c : Char) : Bool := c == '>' || c == '<' || c == '='

/--
The `switch` on one character.  A closing parenthesis falls through into the
modifier cases, so it is recorded in `mod` as well.
-/
def chklsigSwitch (c : Char) (i : Nat) (state : ScanState) : Option ScanState :=
  if c = '(' then
    some { state with pth := state.pth + 1 }
  else if c = ')' then
    if state.pth = 0 then
      none
    else
      some { state with pth := state.pth - 1, mod := some c, modoff := i }
  else if isModifier c then
    some { state with mod := some c, modoff := i }
  else if c = '&' ∨ c = '|' then
    if state.pth = 0 then
      some { state with op := some c, opoff := i }
    else if state.pth = 1 then
      some { state with op1 := some c, op1off := i }
    else
      some state
  else
    some state

/-- `for(i += 2; i + 1 < len && (isdigit(expr[i + 1]) || expr[i + 1] == ','); i++);` -/
def skipBlockModifier (text : List Char) (expr len : Nat) : Nat → Nat → Nat
  | 0, i => i
  | fuel + 1, i =>
    let c := charAt text (expr + i + 1)
    if i + 1 < len ∧ (c.isDigit ∨ c = ',') then
      skipBlockModifier text expr len fuel (i + 1)
    else
      i

/--
What happens at the end of a parenthesised block: its end is noted and a
modifier behind it is converted.  `modval2` keeps an older value when only one
number is written.
-/
def chklsigBlock
    (text : List Char)
    (expr len i : Nat)
    (state : ScanState) :
    Option (Nat × ScanState) :=
  let c := charAt text (expr + i + 1)
  if isModifier c then
    match scanUnsigned (text.drop (expr + i + 2)) with
    | none => none
    | some (modval1, rest) =>
      let modval2 :=
        match rest with
        | ',' :: later =>
          match scanUnsigned later with
          | some (value, _) => value
          | none => state.modval2
        | _ => state.modval2
      some ( skipBlockModifier text expr len len (i + 2), { state with
          blkend := i
          blkmod := some c
          modval1 := modval1
          modval2 := modval2 })
  else
    some (i, { state with blkend := i })

/-- The scanning loop; `none` is one of its `return -1`. -/
def chklsigLoop
    (text : List Char)
    (expr len : Nat) :
    Nat → Nat → ScanState → Option ScanState
  | 0, _, state => some state
  | fuel + 1, i, state =>
    if i < len then
      match chklsigSwitch (charAt text (expr + i)) i state with
      | none => none
      | some switched =>
        if switched.op.isSome then
          some switched
        else if switched.op1.isSome ∧ switched.pth = 0 then
          match chklsigBlock text expr len i switched with
          | none => none
          | some (last, blocked) =>
            if last + 1 = len then
              some blocked
            else
              chklsigLoop text expr len fuel (last + 1) { blocked with blkmod := none }
        else
          chklsigLoop text expr len fuel (i + 1) switched
    else
      some state

/-- What one invocation finds in its range before it looks at any counter. -/
inductive Split where
  /-- A syntax error found while scanning. -/
  | malformed
  /-- No operator and a leading parenthesis: drop the outer characters. -/
  | strip
  /-- A subsignature, with its modifier; a modifier may lack its number. -/
  | atom (id : Nat) (modifier : Option (Char × Option Nat))
  /-- An operator with the two ranges of its operands. -/
  | node (op : Char) (lstart lend rstart rend : Nat) (blkmod : Option Char) (modval1 modval2 : Nat)
  deriving Repr, DecidableEq

/-- The subsignature case: no operator in the range. -/
def splitAtom (text : List Char) (expr : Nat) (state : ScanState) : Split :=
  if charAt text expr = '(' then
    .strip
  else
    match scanUnsigned (text.drop expr) with
    | none => .malformed
    | some (id, _) =>
      .atom id (state.mod.map fun c =>
        (c, (scanUnsigned (text.drop (expr + state.modoff + 1))).map Prod.fst))

/-- The operator case, with the two argument checks. -/
def splitNode
    (expr finish : Nat)
    (op : Char)
    (opoff lstart rend : Nat)
    (state : ScanState) :
    Split :=
  if opoff = 0 then
    .malformed
  else if opoff + 1 = finish - expr then
    .malformed
  else
    .node op lstart (expr + opoff) (expr + opoff + 1) rend state.blkmod state.modval1 state.modval2

/-- The text-only part of one invocation on the range `expr .. finish`. -/
def chklsigSplit (text : List Char) (expr finish : Nat) : Split :=
  let len := finish - expr
  match chklsigLoop text expr len len 0 {} with
  | none => .malformed
  | some state =>
    if state.pth ≠ 0 then
      .malformed
    else
      match state.op, state.op1 with
      | some op, _ =>
        splitNode expr finish op state.opoff expr finish state
      | none, some op1 =>
        splitNode expr finish op1 state.op1off (expr + 1) (expr + state.blkend) state
      | none, none =>
        splitAtom text expr state

/-- Return value, the two accumulators behind `cnt` and `ids`, and the reads. -/
structure Outcome where
  ret : Int
  cnt : Nat
  ids : Nat
  /-- Indices at which `lsigcnt` was read, in order. -/
  reads : List Nat
  deriving Repr, DecidableEq

/-- Comparison of a count against the number behind a modifier. -/
def modifierHolds (c : Char) (count modval : Nat) : Bool :=
  if c = '=' then
    count == modval
  else if c = '<' then
    count < modval
  else if c = '>' then
    modval < count
  else
    false

/-- `*cnt += amount` on an `unsigned int`. -/
def addCount (cnt amount : Nat) : Nat := (cnt + amount) % 2 ^ 32

/-- `(uint64_t) 1 << id`; the shift count is taken modulo the width. -/
def idBit (id : Nat) : Nat := 2 ^ (id % 64)

/-- Number of set bits of a 64-bit word. -/
def popCount (word : Nat) : Nat := ((List.range 64).filter fun bit => word.testBit bit).length

/-- The subsignature case of `cli_ac_chklsig`. -/
def chklsigAtom
    (lsigcnt : Nat → Nat)
    (parseOnly : Bool)
    (cnt ids id : Nat)
    (modifier : Option (Char × Option Nat)) :
    Outcome :=
  let reads := if parseOnly then [] else [id]
  let val := if parseOnly then id else lsigcnt id
  let matched : Outcome := ⟨1, addCount cnt val, ids ||| idBit id, reads⟩
  match modifier with
  | some (_, none) => ⟨-1, cnt, ids, reads⟩
  | some (c, some modval) =>
    if parseOnly then
      ⟨toInt32 val, cnt, ids, reads⟩
    else if modifierHolds c val modval then
      matched
    else
      ⟨0, cnt, ids, reads⟩
  | none =>
    if parseOnly then
      ⟨toInt32 val, cnt, ids, reads⟩
    else if val ≠ 0 then
      matched
    else
      ⟨0, cnt, ids, reads⟩

/-- `ret = lval && rval` or `ret = lval || rval`. -/
def combineTruth (op : Char) (lval rval : Int) : Bool :=
  if op = '&' then
    lval ≠ 0 && rval ≠ 0
  else
    lval ≠ 0 || rval ≠ 0

/-- The operator case of `cli_ac_chklsig`, after both operands succeeded. -/
def chklsigNode
    (parseOnly : Bool)
    (cnt ids : Nat)
    (op : Char)
    (blkmod : Option Char)
    (modval1 modval2 : Nat)
    (left right : Outcome) :
    Outcome :=
  let reads := left.reads ++ right.reads
  if parseOnly then
    ⟨max left.ret right.ret, cnt, ids, reads⟩
  else
    let ret := combineTruth op left.ret right.ret
    match blkmod with
    | none =>
      if ret then
        ⟨1, addCount cnt (addCount left.cnt right.cnt), ids ||| (left.ids ||| right.ids), reads⟩
      else
        ⟨0, cnt, ids, reads⟩
    | some c =>
      let tcnt := if ret then addCount left.cnt right.cnt else 0
      let tids := if ret then left.ids ||| right.ids else 0
      if !modifierHolds c tcnt modval1 then
        ⟨0, cnt, ids, reads⟩
      else if modval2 ≠ 0 ∧ popCount tids < modval2 then
        ⟨0, cnt, ids, reads⟩
      else
        -- the identifiers of a modified block are not handed up
        ⟨1, addCount cnt tcnt, ids, reads⟩

theorem chklsigNode_evaluated
    (cnt ids : Nat)
    (op : Char)
    (blkmod : Option Char)
    (modval1 modval2 : Nat)
    (left right : Outcome) :
    (chklsigNode false cnt ids op blkmod modval1 modval2 left right).ret ≠ -1 ∧
      (chklsigNode false cnt ids op blkmod modval1 modval2
        left right).reads = left.reads ++ right.reads := by
  cases blkmod with
  | none | some c =>
    simp only [chklsigNode]
    split_ifs <;> simp_all

/--
`cli_ac_chklsig` on the range `expr .. finish` of `text`; `none` if the calls nest
deeper than `depth`.
-/
def cliAcChklsig
    (text : List Char)
    (lsigcnt : Nat → Nat)
    (parseOnly : Bool) :
    (depth expr finish cnt ids : Nat) → Option Outcome
  | 0, _, _, _, _ => none
  | depth + 1, expr, finish, cnt, ids =>
    match chklsigSplit text expr finish with
    | .malformed => some ⟨-1, cnt, ids, []⟩
    | .strip =>
      cliAcChklsig text lsigcnt parseOnly depth (expr + 1) (finish - 1) cnt ids
    | .atom id modifier =>
      some (chklsigAtom lsigcnt parseOnly cnt ids id modifier)
    | .node op lstart lend rstart rend blkmod modval1 modval2 =>
      (cliAcChklsig text lsigcnt parseOnly depth lstart lend 0 0).bind fun left =>
        if left.ret = -1 then
          some ⟨-1, cnt, ids, left.reads⟩
        else
          (cliAcChklsig text lsigcnt parseOnly depth rstart rend 0 0).bind fun right =>
            if right.ret = -1 then
              some ⟨-1, cnt, ids, left.reads ++ right.reads⟩
            else
              some (chklsigNode parseOnly cnt ids op blkmod modval1 modval2 left right)

/-- Bounds on the offsets that the scanning loop collects. -/
structure ScanState.Within (state : ScanState) (len : Nat) : Prop where
  opoff : state.op.isSome → state.opoff < len
  op1off : state.op1.isSome → state.op1off < len
  blkend : state.blkend ≤ len

theorem chklsigSwitch_within
    {c : Char}
    {state switched : ScanState}
    (inRange : i < len)
    (within : state.Within len)
    (switches : chklsigSwitch c i state = some switched) :
    switched.Within len := by
  unfold chklsigSwitch at switches
  split_ifs at switches <;> cases switches <;>
    exact ⟨fun found => by first | exact within.opoff found | exact inRange,
      fun found => by first | exact within.op1off found | exact inRange,
      within.blkend⟩

theorem chklsigBlock_within
    {last : Nat}
    {state blocked : ScanState}
    (inRange : i < len)
    (within : state.Within len)
    (blocks : chklsigBlock text expr len i state = some (last, blocked)) :
    blocked.Within len := by
  unfold chklsigBlock at blocks
  simp only at blocks
  split at blocks
  · split at blocks
    · cases blocks
    · cases blocks
      exact ⟨within.opoff, within.op1off, le_of_lt inRange⟩
  · cases blocks
    exact ⟨within.opoff, within.op1off, le_of_lt inRange⟩

/-- The places that are noted lie within the text. -/
theorem chklsigLoop_within
    (text : List Char)
    (expr len fuel : Nat)
    (i state final)
    (within : state.Within len)
    (returns : chklsigLoop text expr len fuel i state = some final) :
    final.Within len := by
  induction fuel generalizing i state final with
  | zero =>
    cases returns
    exact within
  | succ fuel ih =>
    unfold chklsigLoop at returns
    split_ifs at returns with inRange
    · split at returns
      · cases returns
      rename_i switched switches
      have switchedWithin := chklsigSwitch_within inRange within switches
      split at returns
      · cases returns
        exact switchedWithin
      split at returns
      · split at returns
        · cases returns
        rename_i last blocked blocks
        have blockedWithin := chklsigBlock_within inRange switchedWithin blocks
        split at returns
        · cases returns
          exact blockedWithin
        · refine ih _ _ _ ?_ returns
          exact ⟨blockedWithin.opoff, blockedWithin.op1off, blockedWithin.blkend⟩
      · exact ih _ _ _ switchedWithin returns
    · cases returns
      exact within

/-- What is left to recurse on; every call makes it smaller. -/
def rangeMeasure (text : List Char) (expr finish : Nat) : Nat :=
  (finish - expr) + (text.length - expr)

theorem chklsigSplit_strip
    (strips : chklsigSplit text expr finish = .strip) :
    expr < text.length := by
  have atParenthesis : charAt text expr = '(' := by
    unfold chklsigSplit at strips
    simp only at strips
    split at strips
    · cases strips
    split_ifs at strips
    split at strips
    · unfold splitNode at strips
      split_ifs at strips
    · unfold splitNode at strips
      split_ifs at strips
    unfold splitAtom at strips
    split_ifs at strips with leading
    · exact leading
    · split at strips <;> cases strips
  by_contra pastEnd
  rw [charAt_of_drop_nil (List.drop_eq_nil_iff.mpr (by omega))] at atParenthesis
  exact absurd atParenthesis (by decide)

/-- So do the operands. -/
theorem chklsigSplit_node
    {lstart lend rstart rend modval1 modval2 : Nat}
    {op : Char}
    {blkmod : Option Char}
    (splits : chklsigSplit text expr finish =
        .node op lstart lend rstart rend blkmod modval1 modval2) :
    rangeMeasure text lstart lend < rangeMeasure text expr finish ∧
      rangeMeasure text rstart rend < rangeMeasure text expr finish := by
  unfold chklsigSplit at splits
  simp only at splits
  split at splits
  · cases splits
  rename_i state returns
  have within := chklsigLoop_within text expr (finish - expr) (finish - expr) 0 {}
      state ⟨by simp, by simp, Nat.zero_le _⟩ returns
  split_ifs at splits with balanced
  split at splits
  · rename_i found
    have bound := within.opoff (by simp [found])
    unfold splitNode at splits
    split_ifs at splits
    cases splits
    unfold rangeMeasure
    omega
  · rename_i found
    have bound := within.op1off (by simp [found])
    have blockBound := within.blkend
    unfold splitNode at splits
    split_ifs at splits
    cases splits
    unfold rangeMeasure
    omega
  · unfold splitAtom at splits
    split_ifs at splits
    split at splits <;> cases splits

/--
Every invocation returns, and at the same outcome for any greater depth.  The
induction is on the depth, which bounds what is left to recurse on.
-/
theorem cliAcChklsig_returns
    (text : List Char)
    (lsigcnt : Nat → Nat)
    (parseOnly : Bool)
    (depth expr finish cnt ids : Nat)
    (enough : rangeMeasure text expr finish < depth) :
    ∃ outcome, ∀ more,
      cliAcChklsig text lsigcnt parseOnly (depth + more) expr finish cnt ids =
        some outcome := by
  induction depth generalizing expr finish cnt ids with
  | zero =>
      exact absurd enough (Nat.not_lt_zero _)
  | succ depth inductionHypothesis =>
      cases splits : chklsigSplit text expr finish with
      | malformed =>
          refine ⟨⟨-1, cnt, ids, []⟩, fun more => ?_⟩
          rw [Nat.add_right_comm, cliAcChklsig, splits]
      | strip =>
          have inside := chklsigSplit_strip splits
          obtain ⟨outcome, returns⟩ :=
            inductionHypothesis (expr + 1) (finish - 1) cnt ids (by
              unfold rangeMeasure at enough ⊢
              omega)
          refine ⟨outcome, fun more => ?_⟩
          rw [Nat.add_right_comm, cliAcChklsig, splits]
          exact returns more
      | atom id modifier =>
          refine ⟨chklsigAtom lsigcnt parseOnly cnt ids id modifier, fun more => ?_⟩
          rw [Nat.add_right_comm, cliAcChklsig, splits]
      | node op lstart lend rstart rend blkmod modval1 modval2 =>
          have smaller := chklsigSplit_node splits
          obtain ⟨left, leftReturns⟩ := inductionHypothesis lstart lend 0 0 (by omega)
          obtain ⟨right, rightReturns⟩ := inductionHypothesis rstart rend 0 0 (by omega)
          refine ⟨if left.ret = -1 then ⟨-1, cnt, ids, left.reads⟩
            else if right.ret = -1 then ⟨-1, cnt, ids, left.reads ++ right.reads⟩
            else chklsigNode parseOnly cnt ids op blkmod modval1 modval2 left right,
            fun more => ?_⟩
          rw [Nat.add_right_comm, cliAcChklsig, splits]
          simp only [leftReturns more, rightReturns more, Option.bind_some]
          split_ifs <;> rfl

/-- Recursion bound that every call on a sub-range of `text` respects. -/
def chklsigFuel (text : List Char) : Nat := 2 * text.length + 1

/--
Every text, well formed or not, makes `cli_ac_chklsig` return: the calls never nest
deeper than the bound, and a greater bound changes nothing.
-/
theorem cliAcChklsig_ends
    (logic : List Char)
    (lsigcnt : Nat → Nat)
    (parseOnly : Bool) :
    ∃ outcome, ∀ more,
      cliAcChklsig logic lsigcnt parseOnly (chklsigFuel logic + more)
          0 logic.length 0 0 =
        some outcome := by
  apply cliAcChklsig_returns
  unfold rangeMeasure chklsigFuel
  omega

/-- `cli_ac_chklsig(logic, logic + strlen(logic), NULL, NULL, NULL, 1)` -/
def parseLsig (logic : List Char) : Int :=
  ((cliAcChklsig logic (fun _ => 0) true (chklsigFuel logic) 0 logic.length 0 0).map
    Outcome.ret).getD (-1)

/-- The evaluation `cli_lsig_eval` makes, with `evalcnt` and `evalids` at zero. -/
def evalLsig (logic : List Char) (lsigcnt : Nat → Nat) : Outcome :=
  (cliAcChklsig logic lsigcnt false (chklsigFuel logic) 0 logic.length 0 0).getD
    ⟨-1, 0, 0, []⟩

/--
The subsignature checks of `load_oneldb` on a line of `tokensCount` fields.
`line = 0` marks a logical signature that comes with a bytecode.
-/
def loadOneldbSubsigs (logic : List Char) (tokensCount line : Nat) : Option Int :=
  let maxId := parseLsig logic
  if tokensCount < 4 then
    none
  else if maxId = -1 then
    none
  else if maxId + 1 > 64 then
    none
  else if line = 0 then
    if maxId + 1 > (tokensCount : Int) - 3 then
      none
    else
      some ((tokensCount : Int) - 3)
  else if maxId + 1 ≠ (tokensCount : Int) - 3 then
    none
  else
    some (maxId + 1)

end LibClamav.Lsig
