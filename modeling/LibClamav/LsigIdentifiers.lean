import LibClamav.LsigSource

namespace LibClamav.Lsig

open CText

/-!
# Identifiers accepted by the expression parser

The validating run and every evaluating run of one expression split it in the
same places, because the splitting only looks at the text.  What they disagree
on is the value of a subsignature: the validating run returns the identifier
as a signed `int` and combines identifiers by maximum, while an evaluating run
uses the unsigned identifier as an index.
-/

variable {logic : List Char} {tokensCount line : Nat} {subsigs : Int}

/-- The subsignature identifiers of a range, in the order they are read. -/
def identifiers (text : List Char) : Nat → Nat → Nat → List Nat
  | 0, _, _ => []
  | fuel + 1, expr, finish =>
    match chklsigSplit text expr finish with
    | .malformed => []
    | .strip => identifiers text fuel (expr + 1) (finish - 1)
    | .atom id _ => [id]
    | .node _ lstart lend rstart rend _ _ _ =>
      identifiers text fuel lstart lend ++ identifiers text fuel rstart rend

/-- The subsignature identifiers written in a logical expression. -/
def lsigIdentifiers (logic : List Char) : List Nat :=
  identifiers logic (chklsigFuel logic) 0 logic.length

/-- A value that one of the identifiers takes and none of them exceeds. -/
def IsMaxId (maxId : Int) (ids : List Nat) : Prop :=
  (∃ id ∈ ids, toInt32 id = maxId) ∧ ∀ id ∈ ids, toInt32 id ≤ maxId

theorem IsMaxId.append
    {leftMax rightMax : Int}
    {left right : List Nat}
    (leftIsMax : IsMaxId leftMax left)
    (rightIsMax : IsMaxId rightMax right) :
    IsMaxId (max leftMax rightMax) (left ++ right) := by
  obtain ⟨⟨leftId, leftMember, leftValue⟩, leftBound⟩ := leftIsMax
  obtain ⟨⟨rightId, rightMember, rightValue⟩, rightBound⟩ := rightIsMax
  constructor
  · rcases Int.le_total leftMax rightMax with leftSmaller | rightSmaller
    · exact ⟨rightId, by simp [rightMember], by rw [rightValue, Int.max_eq_right leftSmaller]⟩
    · exact ⟨leftId, by simp [leftMember], by rw [leftValue, Int.max_eq_left rightSmaller]⟩
  intro id mem
  rcases List.mem_append.mp mem with inLeft | inRight
  · exact Int.le_trans (leftBound id inLeft) (Int.le_max_left _ _)
  · exact Int.le_trans (rightBound id inRight) (Int.le_max_right _ _)

/-- An atom reads its own counter. -/
theorem chklsigAtom_accepted
    (lsigcnt : Nat → Nat)
    (cnt ids : Nat)
    {parseCnt parseIds id : Nat}
    {modifier : Option (Char × Option Nat)}
    {noCounters : Nat → Nat}
    (accepted : (chklsigAtom noCounters true parseCnt parseIds id modifier).ret ≠ -1) :
    (chklsigAtom lsigcnt false cnt ids id modifier).ret ≠ -1 ∧
      (chklsigAtom lsigcnt false cnt ids id modifier).reads = [id] ∧
      (chklsigAtom noCounters true parseCnt parseIds id modifier).ret = toInt32 id := by
  rcases modifier with _ | ⟨c, _ | modval⟩
  · simp only [chklsigAtom]
    split_ifs <;> simp_all
  · simp [chklsigAtom] at accepted
  · simp only [chklsigAtom]
    split_ifs <;> simp_all

/--
If the validating run accepts a range, every evaluating run of that range
succeeds, reads exactly the identifiers of the range, and the value returned
by the validating run is their signed maximum.
-/
theorem cliAcChklsig_accepted
    (text : List Char)
    (lsigcnt noCounters : Nat → Nat)
    (fuel expr finish parseCnt parseIds cnt ids : Nat)
    (parsed : Outcome)
    (parses :
      cliAcChklsig text noCounters true fuel expr finish parseCnt parseIds = some parsed)
    (accepted : parsed.ret ≠ -1) :
    ∃ outcome,
      cliAcChklsig text lsigcnt false fuel expr finish cnt ids = some outcome ∧
        outcome.ret ≠ -1 ∧
        outcome.reads = identifiers text fuel expr finish ∧
        IsMaxId parsed.ret (identifiers text fuel expr finish) := by
  -- one case for each way an invocation splits its range
  induction fuel generalizing expr finish parseCnt parseIds cnt ids parsed with
  | zero =>
      cases parses
  | succ fuel inductionHypothesis =>
      unfold cliAcChklsig at parses ⊢
      unfold identifiers
      cases splits : chklsigSplit text expr finish with
      | malformed =>
          rw [splits] at parses
          cases parses
          exact absurd rfl accepted
      | strip =>
          simp only [splits] at parses ⊢
          exact inductionHypothesis _ _ _ _ _ _ _ parses accepted
      | atom id modifier =>
          simp only [splits] at parses ⊢
          cases parses
          obtain ⟨evaluates, reads, returned⟩ :=
            chklsigAtom_accepted lsigcnt cnt ids accepted
          refine ⟨_, rfl, evaluates, reads, ?_⟩
          rw [returned]
          exact ⟨⟨id, by simp, rfl⟩, by simp⟩
      | node op lstart lend rstart rend blkmod modval1 modval2 =>
          simp only [splits] at parses ⊢
          obtain ⟨left, leftParses, parses⟩ := Option.bind_eq_some_iff.mp parses
          have leftAccepted : left.ret ≠ -1 := by
            intro failed
            rw [if_pos failed] at parses
            cases parses
            exact accepted rfl
          rw [if_neg leftAccepted] at parses
          obtain ⟨right, rightParses, parses⟩ := Option.bind_eq_some_iff.mp parses
          have rightAccepted : right.ret ≠ -1 := by
            intro failed
            rw [if_pos failed] at parses
            cases parses
            exact accepted rfl
          rw [if_neg rightAccepted] at parses
          cases parses
          obtain ⟨leftOutcome, leftRuns, leftEvaluates, leftReads, leftMax⟩ :=
            inductionHypothesis lstart lend 0 0 0 0 left leftParses leftAccepted
          obtain ⟨rightOutcome, rightRuns, rightEvaluates, rightReads, rightMax⟩ :=
            inductionHypothesis rstart rend 0 0 0 0 right rightParses rightAccepted
          obtain ⟨evaluates, reads⟩ :=
            chklsigNode_evaluated cnt ids op blkmod modval1 modval2
              leftOutcome rightOutcome
          refine ⟨_, ?_, evaluates, ?_, ?_⟩
          · simp only [leftRuns, rightRuns, Option.bind_some, if_neg leftEvaluates,
              if_neg rightEvaluates]
          · rw [reads, leftReads, rightReads]
          · simpa [chklsigNode] using leftMax.append rightMax

theorem IsMaxId.bounds_iff
    {maxId : Int}
    {ids : List Nat}
    (isMax : IsMaxId maxId ids)
    (nonneg : 0 ≤ maxId) :
    (∀ id ∈ ids, (id : Int) ≤ maxId) ↔ ∀ id ∈ ids, id < 2 ^ 31 := by
  obtain ⟨⟨largest, largestMember, largestValue⟩, bound⟩ := isMax
  constructor
  · intro bounded id mem
    have small : maxId < 2 ^ 31 := by
      rw [← largestValue]
      exact toInt32_lt largest
    have := bounded id mem
    omega
  · intro small id mem
    have := bound id mem
    rwa [toInt32_of_lt (small id mem)] at this

/-- An accepted expression is evaluated, and reads the identifiers it is written with. -/
theorem evalLsig_accepted
    (accepted : parseLsig logic ≠ -1)
    (lsigcnt : Nat → Nat) :
    (evalLsig logic lsigcnt).ret ≠ -1 ∧
      (evalLsig logic lsigcnt).reads = lsigIdentifiers logic ∧
      IsMaxId (parseLsig logic) (lsigIdentifiers logic) := by
  obtain ⟨parsed, returns⟩ := cliAcChklsig_ends logic (fun _ => 0) true
  have parses := returns 0
  rw [Nat.add_zero] at parses
  have isParsed : parseLsig logic = parsed.ret := by
    rw [parseLsig, parses]
    rfl
  rw [isParsed] at accepted ⊢
  obtain ⟨outcome, runs, evaluates, reads, isMax⟩ :=
    cliAcChklsig_accepted logic lsigcnt (fun _ => 0) (chklsigFuel logic)
      0 logic.length 0 0 0 0 parsed parses accepted
  rw [evalLsig, runs, Option.getD_some]
  exact ⟨evaluates, reads, isMax⟩

/-- Evaluations never fail and only read counters up to `maxId`. -/
def EvaluatesWithin (logic : List Char) (maxId : Int) : Prop :=
  ∀ lsigcnt : Nat → Nat, (evalLsig logic lsigcnt).ret ≠ -1 ∧
      ∀ k ∈ (evalLsig logic lsigcnt).reads, (k : Int) ≤ maxId

/-- Evaluations only read the 64 counters of one logical signature. -/
def ReadsCountersOnly (logic : List Char) : Prop :=
  ∀ lsigcnt : Nat → Nat, ∀ k ∈ (evalLsig logic lsigcnt).reads, k < 64

/-- An evaluation reads counters up to the largest number. -/
theorem evaluatesWithin_iff
    (nonneg : 0 ≤ parseLsig logic) :
    EvaluatesWithin logic (parseLsig logic) ↔ ∀ id ∈ lsigIdentifiers logic, id < 2 ^ 31 := by
  have accepted : parseLsig logic ≠ -1 := by omega
  have isMax := (evalLsig_accepted accepted (fun _ => 0)).2.2
  rw [← isMax.bounds_iff nonneg]
  constructor
  · intro within id mem
    have := (within fun _ => 0).2
    rw [(evalLsig_accepted accepted _).2.1] at this
    exact this id mem
  intro bounded lsigcnt
  refine ⟨(evalLsig_accepted accepted lsigcnt).1, ?_⟩
  rw [(evalLsig_accepted accepted lsigcnt).2.1]
  exact bounded

theorem loadOneldbSubsigs_accepted
    (loaded : loadOneldbSubsigs logic tokensCount line = some subsigs) :
    parseLsig logic ≠ -1 ∧ parseLsig logic + 1 ≤ 64 := by
  unfold loadOneldbSubsigs at loaded
  simp only at loaded
  split_ifs at loaded <;> omega

/-- It stays within the counters if all numbers do. -/
theorem readsCountersOnly_iff
    (loaded : loadOneldbSubsigs logic tokensCount line = some subsigs) :
    ReadsCountersOnly logic ↔ ∀ id ∈ lsigIdentifiers logic, id < 2 ^ 31 := by
  obtain ⟨accepted, atMost⟩ := loadOneldbSubsigs_accepted loaded
  have isMax := (evalLsig_accepted accepted (fun _ => 0)).2.2
  constructor
  · intro within id mem
    have := within fun _ => 0
    rw [(evalLsig_accepted accepted _).2.1] at this
    have := this id mem
    omega
  intro small lsigcnt k mem
  rw [(evalLsig_accepted accepted lsigcnt).2.1] at mem
  have bounded := isMax.2 k mem
  rw [toInt32_of_lt (small k mem)] at bounded
  omega

/-- `4294967290|0`, whose first identifier is `-6` as an `int`. -/
def hugeIdExpression : List Char := ['4', '2', '9', '4', '9', '6', '7', '2', '9', '0', '|', '0']

end LibClamav.Lsig
