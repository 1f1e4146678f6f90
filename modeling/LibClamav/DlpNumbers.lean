import LibClamav.DlpChunks
import LibClamav.Separators
import Mathlib.Algebra.Ring.Int.Defs
import Mathlib.Data.List.TakeWhile

namespace LibClamav.Dlp

open GreedyScan List

/-!
# What the detectors take for a number

The checks of one number: the remainders of identity numbers, and the digit
group and the checksum of card numbers.  Over them the scan for cards, which
resumes at a fixed distance behind a hit, and the two modes of the detectors.
-/

theorem digitVal_of_isDigit
    {b : UInt8}
    (digit : isDigit b = true) :
    b.toNat = digitVal b + 48 ∧ digitVal b ≤ 9 := by
  simp only [isDigit, Bool.and_eq_true, decide_eq_true_eq, UInt8.le_iff_toNat_le] at digit
  have low : 48 ≤ b.toNat := digit.1
  have high : b.toNat ≤ 57 := digit.2
  unfold digitVal
  omega

theorem digitVal_inj
    {a b : UInt8}
    (digitA : isDigit a = true)
    (digitB : isDigit b = true)
    (same : digitVal a = digitVal b) :
    a = b := by
  have valueA := (digitVal_of_isDigit digitA).1
  have valueB := (digitVal_of_isDigit digitB).1
  exact UInt8.toNat_inj.mp (by omega)

section

variable (buffer : List UInt8)

/-- The digit `d1`, `d2`, … of an identity number, counted from 0. -/
def trDigit (i : Nat) : Int := digitVal (byteAt buffer i)

/-- `7*(d1+d3+d5+d7+d9) - (d2+d4+d6+d8)` -/
def trDifference : Int :=
  7 * (trDigit buffer 0 + trDigit buffer 2 + trDigit buffer 4 + trDigit buffer 6 +
      trDigit buffer 8) -
    (trDigit buffer 1 + trDigit buffer 3 + trDigit buffer 5 + trDigit buffer 7)

/-- An identity number, with its last two digits as residues. -/
def IsTrId : Prop := (buffer.take 11).all isDigit = true ∧ trDigit buffer 0 ≠ 0 ∧
    10 ∣ trDigit buffer 9 - trDifference buffer ∧
    10 ∣ trDigit buffer 10 - ((range 10).map (trDigit buffer)).sum

/-- What the check of an identity number computes. -/
theorem dlpIsValidTrId_iff
    (long : 11 ≤ buffer.length) :
    dlpIsValidTrId buffer = true ↔ trDigit buffer 0 ≠ 0 ∧ (buffer.take 11).all isDigit = true ∧
      (trDifference buffer).tmod 10 = trDigit buffer 9 ∧
      ((range 10).map (trDigit buffer)).sum % 10 = trDigit buffer 10 := by
  rcases buffer with _ | ⟨d1, _ | ⟨d2, _ | ⟨d3, _ | ⟨d4, _ | ⟨d5, _ | ⟨d6, _ | ⟨d7, _ | ⟨d8,
    _ | ⟨d9, _ | ⟨d10, _ | ⟨d11, rest⟩⟩⟩⟩⟩⟩⟩⟩⟩⟩⟩
  iterate 11 · simp at long
  by_cases first : isDigit d1 = true
  swap
  · simp [dlpIsValidTrId, byteAt, first]
  have zero : d1 = 0x30 ↔ digitVal d1 = 0 := by
    rw [← UInt8.toNat_inj, (digitVal_of_isDigit first).1]
    exact Nat.add_eq_right
  simp [dlpIsValidTrId, trDifference, trDigit, byteAt, range_succ, first, zero, mul_comm]

/--
The numbers that are accepted are the identity numbers, except for those whose
difference is negative: C's remainder then is no digit.
-/
theorem dlpIsValidTrId_iff_isTrId
    (long : 11 ≤ buffer.length) :
    (dlpIsValidTrId buffer = true ↔ IsTrId buffer) ↔
      (IsTrId buffer → 0 ≤ trDifference buffer ∨ 10 ∣ trDifference buffer) := by
  have digit (i : Nat) (inside : i < 11) (allDigits : (buffer.take 11).all isDigit = true) :
      0 ≤ trDigit buffer i ∧ trDigit buffer i ≤ 9 := by
    have isDigitAt : isDigit (byteAt buffer i) = true := by
      refine all_eq_true.mp allDigits _ ?_
      simp only [byteAt, getD_eq_getElem?_getD]
      rw [getElem?_eq_getElem (by omega)]
      exact mem_take_iff_getElem.mpr ⟨i, by omega, rfl⟩
    have bound := (digitVal_of_isDigit isDigitAt).2
    unfold trDigit
    omega
  rw [dlpIsValidTrId_iff buffer long, IsTrId, Int.tmod_eq_emod]
  by_cases allDigits : (buffer.take 11).all isDigit = true
  swap
  · simp [allDigits]
  have ninth := digit 9 (by decide) allDigits
  have tenth := digit 10 (by decide) allDigits
  simp only [allDigits, true_and]
  split_ifs with residue
  · omega
  · omega

end

theorem trIdText_isTrId :
    11 ≤ trIdText.length ∧ (dlpIsValidTrId trIdText = true ↔ IsTrId trIdText) :=
  ⟨by decide, (dlpIsValidTrId_iff_isTrId trIdText (by decide)).mpr fun _ => .inl (by decide)⟩

theorem isTrId_not_valid :
    IsTrId [0x31, 0x39, 0x30, 0x39, 0x30, 0x39, 0x30, 0x39, 0x30, 0x31, 0x38] ∧
      dlpIsValidTrId [0x31, 0x39, 0x30, 0x39, 0x30, 0x39, 0x30, 0x39, 0x30, 0x31, 0x38] = false :=
  ⟨⟨by decide, by decide, by decide, by decide⟩, by decide⟩

/-- The characters over which the loop of `dlp_is_valid_cc` goes on. -/
def isCcChar (b : UInt8) : Bool := isDigit b || b == 0x20 || b == 0x2d

/-- `i` behind the loop of `dlp_is_valid_cc`. -/
def ccConsumed (buffer : List UInt8) : Nat :=
  (buffer.take 19).length - (ccCollect (buffer.take 19)).2.length

/-- The digits of a card up to another character. -/
theorem ccCollect_eq
    (text : List UInt8) :
    ccCollect text = ((text.takeWhile isCcChar).filter isDigit, text.dropWhile isCcChar) := by
  induction text with
  | nil => rfl
  | cons b rest ih =>
    rw [ccCollect, ih]
    by_cases digit : isDigit b = true
    · simp [isCcChar, digit]
    by_cases blank : b = 0x20 ∨ b = 0x2d
    · rw [if_neg digit, if_pos blank]
      simp [isCcChar, digit, blank]
    · rw [if_neg digit, if_neg blank]
      simp [isCcChar, digit, blank]

theorem ccConsumed_eq
    (buffer : List UInt8) :
    ccConsumed buffer = ((buffer.take 19).takeWhile isCcChar).length := by
  have whole := congrArg length (takeWhile_append_dropWhile (p := isCcChar) (l := buffer.take 19))
  rw [length_append] at whole
  simp only [ccConsumed, ccCollect_eq]
  omega

/--
The first byte behind the characters that the loop goes over is no digit
exactly if something else than digits and separators stands in the first 19
bytes, or no digit behind them.
-/
theorem cc_group_ends_iff
    (buffer : List UInt8) :
    (∀ b, buffer[ccConsumed buffer]? = some b → isDigit b = false) ↔
      ((buffer.take 19).all isCcChar = true → ∀ b, buffer[19]? = some b → isDigit b = false) := by
  have consumed := ccConsumed_eq buffer
  by_cases allChars : (buffer.take 19).all isCcChar = true
  · rw [takeWhile_eq_self_iff.mpr (all_eq_true.mp allChars), length_take] at consumed
    rcases lt_or_ge buffer.length 19 with short | long
    · simp [consumed, allChars, le_of_lt short]
    · rw [consumed, min_eq_left long, forall_prop_of_true allChars]
  refine iff_of_true (fun b next => ?_) fun all => absurd all allChars
  -- the loop has stopped at another character within the 19 bytes
  have stopped : ccConsumed buffer < 19 := by
    by_contra far
    refine allChars (all_eq_true.mpr (takeWhile_eq_self_iff.mp ?_))
    have taken := takeWhile_prefix (l := buffer.take 19) isCcChar
    refine taken.eq_of_length_le ?_
    rw [← consumed, length_take]
    omega
  rw [consumed] at next stopped
  rw [← getElem?_take_of_lt stopped] at next
  have other := Separators.stops_behind_takeWhile next
  simp only [isCcChar, Bool.or_eq_false_iff] at other
  exact other.1.1

theorem valid_cc_followed_by_digit :
    let buffer : List UInt8 := [0x34, 0x31, 0x31, 0x31, 0x2d, 0x31, 0x31, 0x31, 0x31, 0x2d,
      0x31, 0x31, 0x31, 0x31, 0x2d, 0x31, 0x31, 0x31, 0x31, 0x35]
    dlpIsValidCc buffer = true ∧ buffer[ccConsumed buffer]? = some 0x35 := by
  decide

/-- The sum of two parts. -/
theorem luhnSum_append
    (mult : Bool)
    (front back : List UInt8) :
    luhnSum mult (front ++ back) =
      luhnSum mult front + luhnSum (mult ^^ decide (front.length % 2 = 1)) back := by
  induction front generalizing mult with
  | nil => simp [luhnSum]
  | cons b front ih =>
    have parity : ((!mult) ^^ decide (front.length % 2 = 1)) =
        (mult ^^ decide ((b :: front).length % 2 = 1)) := by
      rw [length_cons]
      rcases Nat.mod_two_eq_zero_or_one front.length with even | odd
      · simp [Nat.add_mod, even]
      · simp [Nat.add_mod, odd]
    rw [cons_append, luhnSum, luhnSum, ih, parity, add_assoc]

theorem ccCollect_run
    {run : List UInt8}
    (rest : List UInt8)
    (chars : ∀ c ∈ run, isCcChar c = true)
    (fits : run.length ≤ 19) :
    (ccCollect ((run ++ rest).take 19)).1 =
      run.filter isDigit ++ (ccCollect (rest.take (19 - run.length))).1 := by
  rw [take_append, take_of_length_le fits]
  simp only [ccCollect_eq]
  rw [takeWhile_append_of_pos chars, filter_append]

theorem chars_of_consumed
    {run rest : List UInt8}
    (inside : run.length ≤ ccConsumed (run ++ rest)) :
    (∀ c ∈ run, isCcChar c = true) ∧ run.length ≤ 19 := by
  rw [ccConsumed_eq] at inside
  have taken := takeWhile_prefix (l := (run ++ rest).take 19) isCcChar
  have ofRun :=
    prefix_of_prefix_length_le (prefix_append run rest) (taken.trans <| take_prefix 19 _) inside
  refine ⟨fun c mem => mem_takeWhile_imp (ofRun.subset mem), ?_⟩
  have short := taken.length_le
  rw [length_take] at short
  omega

/-- A valid card has a Luhn sum of 0. -/
theorem luhn_of_valid
    {buffer : List UInt8}
    (valid : dlpIsValidCc buffer = true) :
    luhnSum false (ccCollect (buffer.take 19)).1.reverse % 10 = 0 := by
  unfold dlpIsValidCc at valid
  split_ifs at valid
  simp only at valid
  split_ifs at valid with _ checksum
  exact not_not.mp checksum

/--
Where a part of an accepted number is replaced by one with as many digits, the
rest adds the same to both checksums.
-/
theorem luhn_of_replaced
    {front middle changed back : List UInt8}
    (valid : dlpIsValidCc (front ++ middle ++ back) = true)
    (valid' : dlpIsValidCc (front ++ changed ++ back) = true)
    (inside : (front ++ middle).length ≤ ccConsumed (front ++ middle ++ back))
    (sameLength : changed.length = middle.length)
    (chars : ∀ c ∈ changed, isCcChar c = true)
    (sameDigits : (changed.filter isDigit).length = (middle.filter isDigit).length) :
    ∃ mult others, (others + luhnSum mult (middle.filter isDigit).reverse) % 10 = 0 ∧
      (others + luhnSum mult (changed.filter isDigit).reverse) % 10 = 0 := by
  obtain ⟨allChars, fits⟩ := chars_of_consumed inside
  have luhn := luhn_of_valid valid
  have luhn' := luhn_of_valid valid'
  have allChars' : ∀ c ∈ front ++ changed, isCcChar c = true := by
    intro c mem
    rcases mem_append.mp mem with inFront | inChanged
    · exact allChars c (mem_append_left middle inFront)
    · exact chars c inChanged
  have lengths : (front ++ changed).length = (front ++ middle).length := by
    rw [length_append, length_append, sameLength]
  rw [ccCollect_run back allChars fits] at luhn
  rw [ccCollect_run back allChars' (lengths.trans_le fits), lengths] at luhn'
  simp only [filter_append, reverse_append, luhnSum_append, length_reverse,
    sameDigits] at luhn luhn'
  rw [← add_assoc, add_right_comm] at luhn luhn'
  exact ⟨_, _, luhn, luhn'⟩

/--
A slip in a card number: one of its digits is changed, or two different
neighbours are swapped, with nothing or separators between them.
-/
inductive CcSlip (buffer : List UInt8) : List UInt8 → Prop where
  | digit (front back : List UInt8) (a b : UInt8) (shape : buffer = front ++ [a] ++ back)
      (inside : front.length < ccConsumed buffer) (digitA : isDigit a = true)
      (digitB : isDigit b = true) (other : a ≠ b) :
      CcSlip buffer (front ++ [b] ++ back)
  | swap (front gap back : List UInt8) (a b : UInt8)
      (shape : buffer = front ++ (a :: gap ++ [b]) ++ back)
      (inside : front.length + 1 + gap.length < ccConsumed buffer) (digitA : isDigit a = true)
      (digitB : isDigit b = true) (adjacent : ∀ c ∈ gap, isDigit c = false) (other : a ≠ b)
      (notZeroNine : ¬ (a = 0x30 ∧ b = 0x39) ∧ ¬ (a = 0x39 ∧ b = 0x30)) :
      CcSlip buffer (front ++ (b :: gap ++ [a]) ++ back)

/-- A slip makes a valid card invalid. -/
theorem dlpIsValidCc_of_slip
    {buffer changed : List UInt8}
    (valid : dlpIsValidCc buffer = true)
    (slip : CcSlip buffer changed) :
    dlpIsValidCc changed = false := by
  by_contra accepted
  have valid' := eq_true_of_ne_false accepted
  cases slip with
  | digit front back a b shape inside digitA digitB other =>
    subst shape
    obtain ⟨mult, others, luhn, luhn'⟩ := luhn_of_replaced valid valid'
      (by rw [length_append]; exact inside) rfl (by simp [isCcChar, digitB])
      (by simp [digitA, digitB])
    have boundA := (digitVal_of_isDigit digitA).2
    have boundB := (digitVal_of_isDigit digitB).2
    -- the weights of a digit are a permutation of 0..9
    refine other (digitVal_inj digitA digitB ?_)
    simp only [filter_cons, digitA, digitB, ↓reduceIte, filter_nil,
      reverse_singleton, luhnSum] at luhn luhn'
    split_ifs at luhn luhn' <;> omega
  | swap front gap back a b shape inside digitA digitB adjacent other notZeroNine =>
    subst shape
    have noDigits : gap.filter isDigit = [] := filter_eq_nil_iff.mpr (by simpa using adjacent)
    obtain ⟨chars, -⟩ := @chars_of_consumed (front ++ (a :: gap ++ [b])) back
      (by simp only [length_append, length_cons, length_nil]; omega)
    obtain ⟨mult, others, luhn, luhn'⟩ := luhn_of_replaced valid valid'
      (by simp only [length_append, length_cons, length_nil]; omega) (by simp)
      (fun c mem => chars c (mem_append_right front (by simp_all [or_comm, or_left_comm])))
      (by simp [digitA, digitB, noDigits])
    have boundA := (digitVal_of_isDigit digitA).2
    have boundB := (digitVal_of_isDigit digitB).2
    have differ : digitVal a ≠ digitVal b := fun same => other (digitVal_inj digitA digitB same)
    have zeroNine : ¬ (digitVal a = 0 ∧ digitVal b = 9) ∧ ¬ (digitVal a = 9 ∧ digitVal b = 0) :=
      ⟨fun pair => notZeroNine.1 ⟨digitVal_inj digitA rfl pair.1, digitVal_inj digitB rfl pair.2⟩,
        fun pair => notZeroNine.2 ⟨digitVal_inj digitA rfl pair.1, digitVal_inj digitB rfl pair.2⟩⟩
    simp only [filter_cons, filter_append, noDigits, digitA, digitB, ↓reduceIte,
      filter_nil, cons_append, nil_append, reverse_cons, reverse_nil,
      luhnSum] at luhn luhn'
    cases mult with
    | true | false =>
      simp only [Bool.not_true, Bool.not_false, ↓reduceIte, Bool.false_eq_true] at luhn luhn'
      split_ifs at luhn luhn' <;> omega

theorem slips_of_visa :
    let visa : List UInt8 := 0x34 :: replicate 15 0x31
    let changed : List UInt8 := 0x34 :: replicate 14 0x31 ++ [0x32]
    let swapped : List UInt8 := 0x31 :: 0x34 :: replicate 14 0x31
    dlpIsValidCc visa = true ∧ CcSlip visa changed ∧ dlpIsValidCc changed = false ∧
      CcSlip visa swapped ∧ dlpIsValidCc swapped = false := by
  intro visa changed swapped
  have valid : dlpIsValidCc visa = true := by decide
  have digit : CcSlip visa changed := .digit (0x34 :: replicate 14 0x31) [] 0x31 0x32 rfl
    (by decide) rfl rfl (by decide)
  have swap : CcSlip visa swapped := .swap [] [] (replicate 14 0x31) 0x34 0x31 rfl
    (by decide) rfl rfl (forall_mem_nil _) (by decide) (by decide)
  exact ⟨valid, digit, dlpIsValidCc_of_slip valid digit, swap, dlpIsValidCc_of_slip valid swap⟩

/-- The cards found by a scan that resumes behind the characters of a hit. -/
def ccScan (buffer : List UInt8) : List Nat :=
  picks (acceptsAt dlpIsValidCc buffer) (fun p => ccConsumed (buffer.drop p) - 1) buffer.length 0

/--
The cards that are counted are those of the scan exactly if no card begins
between the first byte behind a hit and the byte at distance 16, where the
code resumes, whichever comes first.
-/
theorem dlpGetCcCount_eq_scan_iff
    (buffer : List UInt8) :
    (dlpGetCcCount buffer = (ccScan buffer).length ∧ ccDetector.starts buffer = ccScan buffer) ↔
      ∀ p ∈ ccScan buffer, ∀ q < buffer.length, p + min 15 (ccConsumed (buffer.drop p) - 1) < q →
          q ≤ p + max 15 (ccConsumed (buffer.drop p) - 1) →
            acceptsAt dlpIsValidCc buffer q = false := by
  have counted : dlpGetCcCount buffer = (ccDetector.starts buffer).length :=
    containsCc_eq buffer .count
  rw [counted, and_iff_right_of_imp (congrArg length)]
  exact picks_eq_iff_hops 0

theorem dlpGetCcCount_skips_card :
    let buffer : List UInt8 := 0x34 :: replicate 12 0x32 ++ 0x78 :: 0x34 ::
      replicate 15 0x31
    dlpGetCcCount buffer = 1 ∧ ccScan buffer = [0, 14] := by
  intro buffer
  refine ⟨by decide +kernel, ?_⟩
  unfold ccScan
  rw [picks_of_accepts (by decide) (by decide)]
  refine congrArg (cons 0) ?_
  have resumed : 0 + (ccConsumed (buffer.drop 0) - 1) + 1 = 13 := by decide
  rw [resumed, picks_of_rejects (by decide), picks_of_accepts (by decide) (by decide),
    picks_of_le (by decide)]

section

variable (funcs : Finding → Option (List UInt8 → Nat)) (minCount : Finding → Nat)

/-- A counter after one more buffer. -/
def addCount
    (func : Option (List UInt8 → Nat))
    (buf : List UInt8)
    (count : Nat) :
    Nat :=
  match func with
  | none => count
  | some func => (count + func buf) % 2 ^ 32

/-- The loop of `cli_scan_structured` over given functions. -/
def scanLoop : Nat → List UInt8 → (Finding → Nat) → Finding → Nat
  | 0, _, counts => counts
  | fuel + 1, content, counts =>
    if content = [] then
      counts
    else
      let added := fun finding => addCount (funcs finding) (content.take readSize) (counts finding)
      if Finding.all.any fun finding =>
          (funcs finding).isSome && decide (added finding ≥ minCount finding) then
        added
      else
        scanLoop fuel (content.drop readSize) added

/-- The verdict of `cli_scan_structured` over given functions. -/
def scanWith (content : List UInt8) : Option Finding :=
  let counts := scanLoop funcs minCount content.length content fun _ => 0
  Finding.all.find? fun finding =>
    minCount finding != 0 && counts finding != 0 && decide (counts finding ≥ minCount finding)

end

variable (engine : Engine)

/-- The scan with the functions of the engine. -/
theorem cliScanStructured_eq
    (content : List UInt8) :
    cliScanStructured engine content =
      scanWith (structuredFunc engine) engine.minCount content := by
  have loops (fuel : Nat) : ∀ content counts, structuredLoop engine fuel content counts =
      scanLoop (structuredFunc engine) engine.minCount fuel content counts := by
    induction fuel with
    | zero => exact fun content counts => rfl
    | succ fuel ih =>
      intro content counts
      simp only [structuredLoop, scanLoop, ih]
      rfl
  unfold cliScanStructured scanWith
  rw [loops]

/-- The functions that only count, chosen as for a minimum of 2. -/
def countingFunc (engine : Engine) : Finding → Option (List UInt8 → Nat) :=
  structuredFunc { engine with
    minCount := fun finding =>
      if finding.isNumber ∧ engine.minCount finding = 1 then 2 else engine.minCount finding }

/--
Two functions for a finding give one verdict: they are the same, or the minimum
is 1 and they find something in the same buffers.
-/
def SameVerdict (minCount : Nat) (func func' : Option (List UInt8 → Nat)) : Prop :=
  func = func' ∨ minCount = 1 ∧ ∃ f f', func = some f ∧ func' = some f' ∧
    ∀ buf : List UInt8, buf.length ≤ readSize →
      f buf < 2 ^ 32 ∧ f' buf < 2 ^ 32 ∧ (f buf = 0 ↔ f' buf = 0)

theorem NumberClass.count_lt
    (c : NumberClass)
    {buf : List UInt8}
    (short : buf.length ≤ readSize) :
    c.count buf < 2 ^ 32 := by
  have starts (d : Detector) : (d.starts buf).length ≤ readSize :=
    le_trans (length_picks_le 0) short
  unfold readSize at starts
  rw [c.count_eq]
  cases c with
  | ssn =>
    have stripped := starts (ssnDetector .stripped)
    have hyphens := starts (ssnDetector .hyphens)
    simp only [detectors, map_cons, map_nil, sum_cons, sum_nil]
    omega
  | _ => exact lt_of_le_of_lt (starts _) (by decide)

theorem countingFunc_sameVerdict
    (finding : Finding) :
    SameVerdict (engine.minCount finding) (structuredFunc engine finding)
      (countingFunc engine finding) := by
  by_cases detects : finding.isNumber = true ∧ engine.minCount finding = 1
  swap
  · refine .inl ?_
    cases finding <;> simp_all [countingFunc, structuredFunc, ssnFunc, Finding.isNumber]
  obtain ⟨isNumber, one⟩ := detects
  obtain ⟨numbers, choice⟩ := structuredFunc_class engine isNumber
  have detect := choice engine.minCount (by omega)
  have count := choice (fun finding =>
    if finding.isNumber ∧ engine.minCount finding = 1 then 2 else engine.minCount finding)
    (by simp [isNumber, one])
  simp only [isNumber, one, and_self, ↓reduceIte] at detect count
  rw [countingFunc, count]
  refine detect.symm ▸ ?_
  cases numbers with
  | none => exact .inl rfl
  | some c =>
    refine .inr ⟨one, c.has, c.count, rfl, rfl, fun buf short => ?_⟩
    have counted := c.count_lt short
    rw [c.has_eq]
    omega

variable {funcs funcs' : Finding → Option (List UInt8 → Nat)} {minCount : Finding → Nat}

theorem addCount_sameVerdict
    {func func' : Option (List UInt8 → Nat)}
    {minimum count : Nat}
    {buf : List UInt8}
    (same : SameVerdict minimum func func')
    (below : func.isSome = true → count < minimum)
    (short : buf.length ≤ readSize) :
    func.isSome = func'.isSome ∧ (addCount func buf count = 0 ↔ addCount func' buf count = 0) ∧
      (minimum ≤ addCount func buf count ↔ minimum ≤ addCount func' buf count) ∧
      ((func.isSome = true → addCount func buf count < minimum) →
        addCount func buf count = addCount func' buf count) := by
  rcases same with same | ⟨one, f, f', isSome, isSome', finds⟩
  · rw [same]
    exact ⟨rfl, Iff.rfl, Iff.rfl, fun _ => rfl⟩
  rw [isSome] at below ⊢
  rw [isSome']
  have zero := below rfl
  obtain ⟨small, small', found⟩ := finds buf short
  have added : addCount (some f) buf count = f buf := by rw [addCount, Nat.mod_eq_of_lt] <;> omega
  have added' : addCount (some f') buf count = f' buf := by
    rw [addCount, Nat.mod_eq_of_lt] <;> omega
  rw [added, added']
  refine ⟨rfl, found, by omega, fun notDone => ?_⟩
  have stillBelow := notDone rfl
  omega

/-- Functions with the same verdict give the same scan. -/
theorem scanLoop_sameVerdict
    (same : ∀ finding, SameVerdict (minCount finding) (funcs finding)
      (funcs' finding))
    (fuel : Nat) :
    ∀ content counts, (∀ finding, (funcs finding).isSome = true →
        counts finding < minCount finding) →
      ∀ finding, (scanLoop funcs minCount fuel content counts finding = 0 ↔
          scanLoop funcs' minCount fuel content counts finding = 0) ∧
        (minCount finding ≤ scanLoop funcs minCount fuel content counts finding ↔
          minCount finding ≤ scanLoop funcs' minCount fuel content counts finding) := by
  induction fuel with
  | zero => exact fun content counts _ finding => ⟨Iff.rfl, Iff.rfl⟩
  | succ fuel ih =>
    intro content counts below
    simp only [scanLoop]
    by_cases empty : content = []
    · simp [empty]
    rw [if_neg empty, if_neg empty]
    have step (finding : Finding) := addCount_sameVerdict (same finding) (below finding)
      (length_take_le readSize content)
    have sameDone : (Finding.all.any fun finding => (funcs' finding).isSome && decide
        (addCount (funcs' finding) (content.take readSize) (counts finding) ≥ minCount finding)) =
        Finding.all.any fun finding => (funcs finding).isSome && decide
          (addCount (funcs finding) (content.take readSize) (counts finding) ≥
            minCount finding) := by
      refine congrArg (any Finding.all) (funext fun finding => ?_)
      rw [(step finding).1, decide_eq_decide.mpr (step finding).2.2.1]
    rw [sameDone]
    split_ifs with done
    · exact fun finding => ⟨(step finding).2.1, (step finding).2.2.1⟩
    -- nothing has been found yet, so the counters are the same
    have stillBelow (finding : Finding) (enabled : (funcs finding).isSome = true) :
        addCount (funcs finding) (content.take readSize) (counts finding) < minCount finding := by
      by_contra reached
      have listed : finding ∈ Finding.all := by cases finding <;> decide
      exact done (any_eq_true.mpr ⟨finding, listed, by simp [enabled, not_lt.mp reached]⟩)
    rw [← funext fun finding => (step finding).2.2.2 (stillBelow finding)]
    exact ih _ _ stillBelow

/--
Whether there is a number is known exactly if one is counted; so the verdict of
`cli_scan_structured` is the one that counting alone gives.
-/
theorem detect_agrees_with_count
    (buffer content : List UInt8)
    (engine : Engine) :
    (∀ c : NumberClass, c.has buffer = 1 ↔ 1 ≤ c.count buffer) ∧ cliScanStructured engine content =
        scanWith (countingFunc engine) engine.minCount content := by
  constructor
  · intro c
    rw [c.has_eq]
    omega
  rw [cliScanStructured_eq, scanWith, scanWith]
  have verdict := scanLoop_sameVerdict (countingFunc_sameVerdict engine) content.length content
    (fun _ => 0) ?_
  · refine congrArg (find? · Finding.all) (funext fun finding => ?_)
    obtain ⟨sameZero, sameReached⟩ := verdict finding
    rw [Bool.eq_iff_iff]
    simp only [Bool.and_eq_true, bne_iff_ne, ne_eq, decide_eq_true_eq, ge_iff_le, sameZero,
      sameReached]
  · intro finding enabled
    obtain ⟨func, isFunc⟩ := Option.isSome_iff_exists.mp enabled
    exact Nat.pos_of_ne_zero (minCount_of_enabled isFunc)

end LibClamav.Dlp
