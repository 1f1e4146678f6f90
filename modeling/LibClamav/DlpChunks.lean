import LibClamav.DlpSource
import LibClamav.GreedyScan
import Mathlib.Algebra.BigOperators.Group.List.Basic

namespace LibClamav.Dlp

open GreedyScan List

/-!
# Numbers at the edges of reads

Every detector is a scan that hops over what it counts.  Reading a file in
pieces changes two things: a number begins at the first byte of a read whatever
stands before it, and ends with the read; and no hop leaves a read.  The counts
agree with those of one pass over the file exactly if neither makes a
difference.
-/

variable {content text : List UInt8} {counts : Finding → Nat} {pad : UInt8} {length : Nat}
  (buffer : List UInt8) (detmode : DetectMode)

/--
A detector: its test, how far it hops over a counted number, and that its test
accepts no text that is too short.
-/
structure Detector where
  minlength : Nat
  valid : List UInt8 → Bool
  hop : Nat
  short : ∀ text, text.length < minlength → valid text = false

namespace Detector

/-- The starts of the numbers that a detector counts in a buffer. -/
def starts (d : Detector) (buffer : List UInt8) : List Nat :=
  picks (acceptsAt d.valid buffer) (fun _ => d.hop) buffer.length 0

/-- A buffer below the minimal length has no number. -/
theorem starts_of_short
    (d : Detector)
    {buffer : List UInt8}
    (short : buffer.length < d.minlength) :
    d.starts buffer = [] := by
  have rejected (q : Nat) : acceptsAt d.valid buffer q = false := by
    unfold acceptsAt
    rw [d.short, Bool.and_false]
    rw [length_drop]
    omega
  unfold starts
  rw [picks_skip (Nat.zero_le buffer.length) fun q _ _ => rejected q, picks_of_le (Nat.le_refl _)]

end Detector

/-- The loop counts the numbers, or stops at the first one. -/
theorem containsLoop_eq
    (valid : List UInt8 → Bool)
    (hop : Nat)
    (detmode : DetectMode)
    (buffer : List UInt8)
    (fuel : Nat)
    (i count)
    (enough : buffer.length ≤ i + fuel) :
    containsLoop valid hop detmode buffer fuel i count =
      let starts := (picks (acceptsAt valid buffer) (fun _ => hop) buffer.length i).length
      match detmode with
      | .detect => if starts = 0 then count else 1
      | .count => count + starts := by
  induction fuel generalizing i count with
  | zero =>
    rw [add_zero] at enough
    rw [picks_of_le enough]
    cases detmode with
    | detect | count => rfl
  | succ fuel ih =>
    unfold containsLoop
    by_cases inside : i < buffer.length
    · rw [if_pos inside]
      cases test : acceptsAt valid buffer i with
      | true =>
        rw [picks_of_accepts inside test, length_cons]
        cases detmode with
        | detect => simp
        | count =>
          simp only [↓reduceIte]
          rw [ih _ _ (by omega)]
          dsimp only
          omega
      | false =>
        rw [picks_of_rejects test]
        exact ih _ _ (by omega)
    · rw [if_neg inside, picks_of_le (not_lt.mp inside)]
      cases detmode with
      | detect | count => rfl

/--
The common part of the `contains_*` functions counts the starts of a detector,
or tells whether there are any; its hop may be shorter than the detector's
where both lead out of the buffer.
-/
theorem containsNumber_eq
    (d : Detector)
    {hop : Nat}
    (buffer : List UInt8)
    (detmode : DetectMode)
    (hops : hop = d.hop ∨ buffer.length ≤ hop + 1 ∧ hop ≤ d.hop) :
    containsNumber d.minlength d.valid hop detmode buffer =
      match detmode with
      | .detect => min 1 (d.starts buffer).length
      | .count => (d.starts buffer).length := by
  unfold containsNumber
  by_cases short : buffer.length < d.minlength
  · rw [if_pos short, d.starts_of_short short]
    cases detmode with
    | detect | count => rfl
  have samePicks : picks (acceptsAt d.valid buffer) (fun _ => hop) buffer.length 0 =
        d.starts buffer := by
    refine picks_congr_hop 0 ?_
    intro p _ _
    rcases hops with same | ⟨leaves, shorter⟩
    · exact .inl same
    · exact .inr ⟨by omega, by omega⟩
  rw [if_neg short, ← samePicks, containsLoop_eq _ _ _ _ _ 0 0 (by omega)]
  cases detmode with
  | detect =>
    dsimp only
    split_ifs <;> omega
  | count => exact zero_add _

/-- `contains_cc` -/
def ccDetector : Detector where
  minlength := 13
  valid := dlpIsValidCc
  hop := 15
  short := by
    intro text tooShort
    rw [dlpIsValidCc, if_pos tooShort]

/-- `contains_ssn` -/
def ssnDetector (format : SsnFormat) : Detector where
  minlength := 9
  valid := dlpIsValidSsn format
  hop :=
    match format with
    | .hyphens => 11
    | .stripped => 9
  short := by
    intro text tooShort
    have belowMinlength : text.length < format.minlength := by
      cases format with
      | hyphens => exact Nat.lt_of_lt_of_le tooShort (by decide)
      | stripped => exact tooShort
    rw [dlpIsValidSsn]
    simp only [belowMinlength, ↓reduceIte]

/-- `contains_tr_id` -/
def trIdDetector : Detector where
  minlength := 11
  valid := dlpIsValidTrId
  hop := 11
  short := by
    intro text tooShort
    rw [dlpIsValidTrId, if_pos tooShort]

/-- The classes of numbers that are counted together. -/
inductive NumberClass where
  | cc
  | normalSsn
  | strippedSsn
  | ssn
  | trId
  deriving Repr, DecidableEq

namespace NumberClass

/-- The detectors of a class. -/
def detectors : NumberClass → List Detector
  | cc => [ccDetector]
  | normalSsn => [ssnDetector .hyphens]
  | strippedSsn => [ssnDetector .stripped]
  | ssn => [ssnDetector .stripped, ssnDetector .hyphens]
  | trId => [trIdDetector]

/-- The `dlp_get_*_count` function of a class. -/
def count : NumberClass → List UInt8 → Nat
  | cc => dlpGetCcCount
  | normalSsn => dlpGetNormalSsnCount
  | strippedSsn => dlpGetStrippedSsnCount
  | ssn => dlpGetSsnCount
  | trId => dlpGetTrIdCount

/-- The `dlp_has_*` function of a class. -/
def has : NumberClass → List UInt8 → Nat
  | cc => dlpHasCc
  | normalSsn => dlpHasNormalSsn
  | strippedSsn => dlpHasStrippedSsn
  | ssn => dlpHasSsn
  | trId => dlpHasTrId

end NumberClass

/-- Credit cards are counted as the detector finds them. -/
theorem containsCc_eq : containsCc buffer detmode = match detmode with
      | .detect => min 1 (ccDetector.starts buffer).length
      | .count => (ccDetector.starts buffer).length := by
  refine containsNumber_eq ccDetector buffer detmode ?_
  show _ = 15 ∨ _ ∧ _ ≤ 15
  split <;> omega

/-- So are social security numbers of each format. -/
theorem containsSsn_eq
    (format : SsnFormat)
    (detmode : DetectMode) :
    containsSsn buffer format detmode = match detmode with
      | .detect => min 1 ((ssnDetector format).starts buffer).length
      | .count => ((ssnDetector format).starts buffer).length :=
  containsNumber_eq (ssnDetector format) buffer detmode (.inl rfl)

/-- So are identity numbers. -/
theorem containsTrId_eq : containsTrId buffer detmode = match detmode with
      | .detect => min 1 (trIdDetector.starts buffer).length
      | .count => (trIdDetector.starts buffer).length := by
  refine containsNumber_eq trIdDetector buffer detmode ?_
  show _ = 11 ∨ _ ∧ _ ≤ 11
  split <;> omega

/-- The count of a class is that of its detectors. -/
theorem NumberClass.count_eq
    (c : NumberClass)
    (buffer : List UInt8) :
    c.count buffer =
      (c.detectors.map fun d => (d.starts buffer).length).sum := by
  cases c with
  | cc => exact containsCc_eq buffer .count
  | normalSsn => exact containsSsn_eq buffer .hyphens .count
  | strippedSsn => exact containsSsn_eq buffer .stripped .count
  | trId => exact containsTrId_eq buffer .count
  | ssn =>
    exact congrArg₂ (· + ·) (containsSsn_eq buffer .stripped .count)
      (containsSsn_eq buffer .hyphens .count)

/-- Detection is a count that stops at one. -/
theorem NumberClass.has_eq
    (c : NumberClass)
    (buffer : List UInt8) :
    c.has buffer = min 1 (c.count buffer) := by
  rw [count_eq]
  cases c with
  | cc => exact containsCc_eq buffer .detect
  | normalSsn => exact containsSsn_eq buffer .hyphens .detect
  | strippedSsn => exact containsSsn_eq buffer .stripped .detect
  | trId => exact containsTrId_eq buffer .detect
  | ssn =>
    have hyphens := containsSsn_eq buffer .hyphens .detect
    have stripped := containsSsn_eq buffer .stripped .detect
    simp only [has, dlpHasSsn, detectors, map_cons, map_nil, sum_cons, sum_nil, hyphens, stripped]
    generalize ((ssnDetector .hyphens).starts buffer).length = h
    generalize ((ssnDetector .stripped).starts buffer).length = s
    rcases h with _ | h
    · rcases s with _ | s
      · rfl
      · simp
    rcases s with _ | s
    · simp
    · rw [min_eq_left (Nat.le_add_left 1 h), min_eq_left (Nat.le_add_left 1 s), Nat.or_self]
      omega

/-- The buffers that `cli_readn` fills, one after the other. -/
def readsFrom : Nat → List UInt8 → List (List UInt8)
  | 0, _ => []
  | fuel + 1, content =>
    if content = [] then
      []
    else
      content.take readSize :: readsFrom fuel (content.drop readSize)

/-- The reads of a whole file. -/
def reads (content : List UInt8) : List (List UInt8) := readsFrom content.length content

/-- The numbers that a detector counts in successive buffers. -/
def Detector.startsIn (d : Detector) : Nat → List (List UInt8) → List Nat
  | _, [] => []
  | start, buf :: rest =>
    (d.starts buf).map (start + ·) ++ d.startsIn (start + buf.length) rest

/-- The numbers of all buffers are counted one by one. -/
theorem Detector.length_startsIn
    (d : Detector)
    (bufs : List (List UInt8))
    (start) :
    (d.startsIn start bufs).length = (bufs.map fun buf => (d.starts buf).length).sum := by
  induction bufs generalizing start with
  | nil => rfl
  | cons buf rest ih =>
    rw [startsIn, length_append, length_map, ih, map_cons, sum_cons]

/-- The test at a position of a file, within the read that it belongs to. -/
def readAccepts
    (d : Detector)
    (content : List UInt8)
    (p : Nat) :
    Bool := acceptsAt d.valid
    ((content.drop (p / readSize * readSize)).take readSize) (p % readSize)

/-- The hop at a position of a file, which ends with the read. -/
def readHop
    (d : Detector)
    (p : Nat) :
    Nat := min d.hop (readSize - p % readSize - 1)

/-- A hop does not leave its buffer. -/
theorem readHop_lands
    (d : Detector)
    {p cut : Nat}
    (isEdge : cut % readSize = 0)
    (before : p < cut) :
    p + readHop d p + 1 ≤ cut := by
  have left : readHop d p ≤ readSize - p % readSize - 1 := min_le_right _ _
  unfold readSize at *
  omega

/-- The numbers of one buffer, at their places in the file. -/
theorem starts_read
    (d : Detector)
    (content : List UInt8)
    {start : Nat}
    (isEdge : start % readSize = 0) :
    (d.starts ((content.drop start).take readSize)).map (start + ·) =
      picks (readAccepts d content) (readHop d)
        (start + ((content.drop start).take readSize).length) start := by
  have bufLength : ((content.drop start).take readSize).length ≤ readSize := by
    rw [length_take]
    exact min_le_left _ _
  have position (k : Nat) (inside : k < readSize) : (start + k) / readSize * readSize = start ∧
        (start + k) % readSize = k := by
    unfold readSize at *
    omega
  refine Eq.trans (congrArg (map (start + ·)) ?_) (picks_shift start 0)
  refine Eq.trans (picks_congr_accepts 0 ?_) (picks_congr_hop 0 ?_)
  · intro k _ inside
    obtain ⟨edge, place⟩ := position k (lt_of_lt_of_le inside bufLength)
    unfold readAccepts
    rw [edge, place]
  intro k inside _
  have place := (position k (lt_of_lt_of_le inside bufLength)).2
  unfold readHop
  rw [place]
  rcases le_total d.hop (readSize - k - 1) with fits | leaves
  · exact .inl (min_eq_left fits).symm
  · rw [min_eq_right leaves]
    exact .inr ⟨by omega, by omega⟩

/-- The numbers of all buffers are one pass through the file. -/
theorem startsIn_readsFrom
    (d : Detector)
    (content : List UInt8)
    (fuel : Nat)
    (start)
    (isEdge : start % readSize = 0)
    (enough : content.length ≤ start + fuel) :
    d.startsIn start (readsFrom fuel (content.drop start)) =
      picks (readAccepts d content) (readHop d) content.length start := by
  induction fuel generalizing start with
  | zero =>
    rw [add_zero] at enough
    rw [picks_of_le enough]
    rfl
  | succ fuel ih =>
    rw [readsFrom]
    by_cases atEnd : content.drop start = []
    · rw [if_pos atEnd, picks_of_le (drop_eq_nil_iff.mp atEnd)]
      rfl
    have inside : start < content.length :=
      Nat.lt_of_not_le fun le => atEnd (drop_eq_nil_iff.mpr le)
    rw [if_neg atEnd, Detector.startsIn, starts_read d content isEdge]
    rcases lt_or_ge (content.length - start) readSize with
      partly | full
    · -- the last read is cut off by the end of the file
      have bufLength : start + ((content.drop start).take readSize).length =
            content.length := by
        rw [length_take, length_drop, min_eq_right (le_of_lt partly)]
        omega
      have noMore : (content.drop start).drop readSize = [] := by
        rw [drop_drop]
        exact drop_eq_nil_iff.mpr (by omega)
      rw [bufLength, noMore]
      cases fuel with
      | zero => exact append_nil _
      | succ fuel =>
        rw [readsFrom, if_pos rfl]
        exact append_nil _
    · have bufLength : start + ((content.drop start).take readSize).length = start + readSize := by
        rw [length_take, length_drop, min_eq_left full]
      have nextEdge : (start + readSize) % readSize = 0 := by
        rw [Nat.add_mod_right]
        exact isEdge
      have positive : 0 < readSize := by decide
      rw [bufLength, drop_drop, ih (start + readSize) nextEdge (by omega)]
      exact (picks_split (start + readSize) start (Nat.le_add_right _ _)
        (by omega) fun p before _ => readHop_lands d nextEdge before).symm

/--
What reading in pieces must not change, for one detector: at every start that
the scan of the whole file tries, the test within the read agrees, and of the
starts that it hops over behind an edge none is accepted there.
-/
def Detector.SafeAtEdges (d : Detector) (content : List UInt8) : Prop :=
  Agrees (acceptsAt d.valid content) (readAccepts d content)
    (fun _ => d.hop) (readHop d) content.length 0

/-- The buffers show the numbers of the file if none is at an edge. -/
theorem Detector.startsIn_eq_iff
    (d : Detector)
    (content : List UInt8) :
    d.startsIn 0 (reads content) = d.starts content ↔ d.SafeAtEdges content := by
  have inPieces := startsIn_readsFrom d content content.length 0 rfl (by omega)
  have shorter (p : Nat) : readHop d p ≤ d.hop := min_le_left _ _
  rw [drop_zero] at inPieces
  unfold reads starts SafeAtEdges
  rw [inPieces, eq_comm, picks_eq_iff shorter content.length 0 0 (by omega) (by omega)]
  refine and_iff_right ?_
  intro q _ below
  exact absurd below (Nat.not_lt_zero q)

namespace NumberClass

/-- Read by read the same numbers of a class are counted as in one pass. -/
def SameNumbers (c : NumberClass) (content : List UInt8) : Prop :=
  ∀ d ∈ c.detectors, d.startsIn 0 (reads content) = d.starts content

/-- The edges of the reads are safe for all detectors of a class. -/
def SafeAtEdges (c : NumberClass) (content : List UInt8) : Prop :=
  ∀ d ∈ c.detectors, d.SafeAtEdges content

theorem sum_count_reads
    (c : NumberClass)
    (bufs : List (List UInt8)) :
    (bufs.map c.count).sum =
      (c.detectors.map fun d => (d.startsIn 0 bufs).length).sum := by
  simp only [Detector.length_startsIn, funext c.count_eq]
  induction bufs with
  | nil => simp
  | cons buf rest ih =>
    simp only [map_cons, sum_cons, ih, sum_map_add]

/-- The counts of the buffers add up to that of the file. -/
theorem sum_count_of_same
    {c : NumberClass}
    (same : c.SameNumbers content) :
    ((reads content).map c.count).sum = c.count content := by
  rw [sum_count_reads, count_eq]
  refine congrArg sum (map_congr_left ?_)
  intro d mem
  rw [same d mem]

/-- The sums of a `dlp_has_*` function are positive where the counts are. -/
theorem sum_has_pos_iff
    (c : NumberClass)
    (bufs : List (List UInt8)) :
    1 ≤ (bufs.map c.has).sum ↔ 1 ≤ (bufs.map c.count).sum := by
  induction bufs with
  | nil => exact Iff.rfl
  | cons buf rest ih =>
    rw [map_cons, map_cons, sum_cons, sum_cons, has_eq]
    omega

end NumberClass

/-- The findings that are numbers, counted by this file's detectors. -/
def Finding.isNumber : Finding → Bool
  | .creditCardNumber => true
  | .ssn => true
  | .trId => true
  | .regex => false
  | .iban => false

variable {engine : Engine} {finding : Finding} {func : List UInt8 → Nat}

/-- A function that is enabled has a minimal count. -/
theorem minCount_of_enabled
    (enabled : structuredFunc engine finding = some func) :
    engine.minCount finding ≠ 0 := by
  intro isZero
  unfold structuredFunc at enabled
  rw [if_pos isZero] at enabled
  cases enabled

/-- A function for numbers is that of a class. -/
theorem structuredFunc_class
    (engine : Engine)
    {finding : Finding}
    (isNumber : finding.isNumber = true) :
    ∃ numbers : Option NumberClass, ∀ minCount : Finding → Nat, minCount finding ≠ 0 →
      structuredFunc { engine with minCount := minCount } finding =
        numbers.map fun c => hasOrCount (minCount finding) c.has c.count := by
  cases finding with
  | creditCardNumber => exact ⟨some .cc, fun minCount enabled => if_neg enabled⟩
  | trId => exact ⟨some .trId, fun minCount enabled => if_neg enabled⟩
  | regex | iban => cases isNumber
  | ssn =>
    cases engine.ssnNormal with
    | true =>
      cases engine.ssnStripped with
      | true => exact ⟨some .ssn, fun minCount enabled => if_neg enabled⟩
      | false => exact ⟨some .normalSsn, fun minCount enabled => if_neg enabled⟩
    | false =>
      cases engine.ssnStripped with
      | true => exact ⟨some .strippedSsn, fun minCount enabled => if_neg enabled⟩
      | false => exact ⟨none, fun minCount enabled => if_neg enabled⟩

theorem structuredFunc_isNumber
    (isNumber : finding.isNumber = true)
    (enabled : structuredFunc engine finding = some func) :
    ∃ c : NumberClass, func = hasOrCount (engine.minCount finding) c.has c.count := by
  obtain ⟨numbers, choice⟩ := structuredFunc_class engine isNumber
  have chosen := choice engine.minCount (minCount_of_enabled enabled)
  obtain ⟨c, -, rfl⟩ := Option.map_eq_some_iff.mp (chosen.symm.trans enabled)
  exact ⟨c, rfl⟩

/-- The buffers reach the minimal count exactly if the file does. -/
theorem reached_iff_of_same
    (isNumber : finding.isNumber = true)
    (enabled : structuredFunc engine finding = some func)
    (same : ∀ c : NumberClass, c.SameNumbers content) :
    engine.minCount finding ≤ ((reads content).map func).sum ↔
      engine.minCount finding ≤ func content := by
  obtain ⟨c, rfl⟩ := structuredFunc_isNumber isNumber enabled
  have sums := NumberClass.sum_count_of_same (same c)
  unfold hasOrCount
  split_ifs with one
  · rw [one, c.sum_has_pos_iff, sums, c.has_eq]
    omega
  · rw [sums]

/-- A count goes up by what the function finds. -/
theorem addCounts_eq
    {buf : List UInt8}
    (enabled : structuredFunc engine finding = some func)
    (noWrap : counts finding + func buf < 2 ^ 32) :
    addCounts engine buf counts finding = counts finding + func buf := by
  simp only [addCounts, enabled]
  exact Nat.mod_eq_of_lt noWrap

/-- The loop stops once a minimal count is reached. -/
theorem isDone_iff :
    isDone engine counts = true ↔ ∃ finding func, structuredFunc engine finding = some func ∧
        engine.minCount finding ≤ counts finding := by
  have listed (finding : Finding) : finding ∈ Finding.all := by
    cases finding <;> decide
  simp only [isDone, any_eq_true, Bool.and_eq_true, decide_eq_true_eq, Option.isSome_iff_exists]
  constructor
  · rintro ⟨finding, -, ⟨func, enabled⟩, reached⟩
    exact ⟨finding, func, enabled, reached⟩
  · rintro ⟨finding, func, enabled, reached⟩
    exact ⟨finding, listed finding, ⟨func, enabled⟩, reached⟩

/-- A count without a function stays. -/
theorem structuredLoop_disabled
    (disabled : structuredFunc engine finding = none)
    (fuel : Nat)
    (content counts) :
    structuredLoop engine fuel content counts finding = counts finding := by
  induction fuel generalizing content counts with
  | zero => rfl
  | succ fuel ih =>
    have unchanged : addCounts engine (content.take readSize) counts finding = counts finding := by
      simp only [addCounts, disabled]
    rw [structuredLoop]
    split
    · rfl
    simp only
    split
    · exact unchanged
    · rw [ih, unchanged]

/-- The loop reaches a minimal count if the sums do. -/
theorem structuredLoop_done_iff
    {engine : Engine}
    (fuel : Nat)
    (content counts)
    (enough : content.length ≤ fuel)
    (noWrap : ∀ finding func, structuredFunc engine finding = some func →
      counts finding + ((readsFrom fuel content).map func).sum < 2 ^ 32) :
    (isDone engine (structuredLoop engine fuel content counts) = true ↔
      ∃ finding func, structuredFunc engine finding = some func ∧ engine.minCount finding ≤
          counts finding + ((readsFrom fuel content).map func).sum) := by
  induction fuel generalizing content counts with
  | zero =>
    exact isDone_iff
  | succ fuel ih =>
    rw [structuredLoop]
    rw [readsFrom] at noWrap ⊢
    by_cases atEnd : content = []
    · rw [if_pos atEnd, if_pos atEnd]
      exact isDone_iff
    rw [if_neg atEnd] at noWrap
    rw [if_neg atEnd, if_neg atEnd]
    simp only [map_cons, sum_cons, ← add_assoc] at noWrap ⊢
    have added (finding : Finding) (func : List UInt8 → Nat)
        (enabled : structuredFunc engine finding = some func) :
        addCounts engine (content.take readSize) counts finding =
          counts finding + func (content.take readSize) :=
      addCounts_eq enabled (by
        have total := noWrap finding func enabled
        omega)
    have shorter : (content.drop readSize).length ≤ fuel := by
      have positive : 0 < readSize := by decide
      rw [length_drop]
      omega
    split_ifs with done
    · obtain ⟨finding, func, enabled, reached⟩ := isDone_iff.mp done
      rw [added finding func enabled] at reached
      exact iff_of_true done ⟨finding, func, enabled, by omega⟩
    rw [ih _ _ shorter]
    · constructor
      · rintro ⟨finding, func, enabled, reached⟩
        rw [added finding func enabled] at reached
        exact ⟨finding, func, enabled, reached⟩
      · rintro ⟨finding, func, enabled, reached⟩
        rw [← added finding func enabled] at reached
        exact ⟨finding, func, enabled, reached⟩
    · intro finding func enabled
      rw [added finding func enabled]
      exact noWrap finding func enabled

/-- Something is found if a sum reaches its minimal count. -/
theorem cliScanStructured_isSome_iff
    (noWrap : ∀ finding func, structuredFunc engine finding = some func →
      ((reads content).map func).sum < 2 ^ 32) :
    (cliScanStructured engine content).isSome = true ↔
      ∃ finding func, structuredFunc engine finding = some func ∧
        engine.minCount finding ≤ ((reads content).map func).sum := by
  have done := @structuredLoop_done_iff engine content.length content (fun _ => 0) (le_rfl)
    (fun finding func enabled => by
      rw [zero_add]
      exact noWrap finding func enabled)
  simp only [zero_add] at done
  refine Iff.trans ?_ done
  rw [isDone_iff, cliScanStructured]
  simp only [find?_isSome, Bool.and_eq_true, bne_iff_ne, ne_eq, decide_eq_true_eq]
  constructor
  · rintro ⟨finding, -, ⟨minimum, counted⟩, reached⟩
    cases enabled : structuredFunc engine finding with
    | none =>
      exact absurd (structuredLoop_disabled enabled _ _ _) counted
    | some func => exact ⟨finding, func, enabled, reached⟩
  rintro ⟨finding, func, enabled, reached⟩
  have minimum := minCount_of_enabled enabled
  have listed : finding ∈ Finding.all := by
    cases finding <;> decide
  refine ⟨finding, listed, ⟨minimum, ?_⟩, reached⟩
  omega

/-- Padding moves the numbers behind it. -/
theorem Detector.starts_replicate_append
    (d : Detector)
    (noDigit : isDigit pad = false)
    (length : Nat)
    (text : List UInt8) :
    d.starts (replicate length pad ++ text) = (d.starts text).map (length + ·) := by
  have inPad (k : Nat) (before : k < length) : byteAt (replicate length pad ++ text) k = pad := by
    rw [byteAt_append_left _ (by rw [length_replicate]; exact before)]
    simp [byteAt, getD_eq_getElem?_getD, before]
  have behind (k : Nat) : byteAt (replicate length pad ++ text) (length + k) = byteAt text k := by
    rw [← byteAt_drop, drop_left' length_replicate]
  unfold starts
  rw [picks_skip (Nat.zero_le length)]
  · have total : (replicate length pad ++ text).length = length + text.length := by
      rw [length_append, length_replicate]
    rw [total]
    refine Eq.symm (Eq.trans ?_ (picks_shift length 0))
    · refine congrArg (map (length + ·)) (picks_congr_accepts 0 ?_)
      intro k _ _
      have sameDrop : (replicate length pad ++ text).drop (length + k) = text.drop k := by
        rw [← drop_drop, drop_left' length_replicate]
      cases k with
      | zero =>
        have before : (length == 0 || !isDigit (byteAt
              (replicate length pad ++ text) (length - 1))) = true := by
          cases length with
          | zero => rfl
          | succ length =>
            rw [inPad _ (Nat.sub_lt (Nat.succ_pos length) Nat.one_pos), noDigit]
            rfl
        have atStart := behind 0
        rw [Nat.add_zero] at atStart sameDrop
        simp only [acceptsAt, Nat.add_zero, sameDrop, atStart, before]
        rfl
      | succ k =>
        have noStart : (length + (k + 1) == 0) = false := by simp
        simp only [acceptsAt, sameDrop, behind, noStart,
          show length + (k + 1) - 1 = length + k from rfl]
        rfl
  · intro q _ below
    unfold acceptsAt
    rw [inPad q below, noDigit]
    rfl

theorem NumberClass.count_replicate_append
    (c : NumberClass)
    (noDigit : isDigit pad = false)
    (length : Nat)
    (text : List UInt8) :
    c.count (replicate length pad ++ text) = c.count text := by
  simp only [count_eq, Detector.starts_replicate_append _ noDigit, length_map]

/-- A full buffer and the rest. -/
theorem reads_append
    {front rest : List UInt8}
    (full : front.length = readSize)
    (short : rest.length ≤ readSize)
    (nonempty : rest ≠ []) :
    reads (front ++ rest) = [front, rest] := by
  have total : (front ++ rest).length = readSize - 1 + rest.length + 1 := by
    rw [length_append, full]
    unfold readSize
    omega
  have frontNonempty : front ++ rest ≠ [] := by simp [nonempty]
  obtain ⟨m, fuel⟩ : ∃ m, readSize - 1 + rest.length = m + 2 :=
    ⟨readSize - 3 + rest.length, by unfold readSize; omega⟩
  unfold reads
  rw [total, readsFrom, if_neg frontNonempty, take_left' full,
    drop_left' full, fuel, readsFrom, if_neg nonempty,
    take_of_length_le short, drop_of_length_le short, readsFrom,
    if_pos rfl]

/--
Read by read the numbers of every class are the numbers of the whole file
exactly if the edges are safe; then the counts add up to the count of the
whole file, and the verdict is the one that its numbers give.
-/
theorem reads_keep_numbers_iff_safe_edges
    (content : List UInt8) :
    (∀ c : NumberClass, (c.SameNumbers content ↔ c.SafeAtEdges content) ∧ (c.SafeAtEdges content →
          ((reads content).map c.count).sum = c.count content)) ∧
      ∀ engine : Engine, (∀ finding func, structuredFunc engine finding = some func →
          ((reads content).map func).sum < 2 ^ 32) →
        (∀ c : NumberClass, c.SafeAtEdges content) →
        ((cliScanStructured engine content).isSome = true ↔
          ∃ finding func, structuredFunc engine finding = some func ∧ engine.minCount finding ≤
              if finding.isNumber then func content
              else ((reads content).map func).sum) := by
  have kept (c : NumberClass) : c.SameNumbers content ↔ c.SafeAtEdges content :=
    forall₂_congr fun d _ => d.startsIn_eq_iff content
  refine ⟨fun c => ⟨kept c, fun safe => NumberClass.sum_count_of_same ((kept c).mpr safe)⟩, ?_⟩
  intro engine noWrap safe
  have same (c : NumberClass) := (kept c).mpr (safe c)
  rw [cliScanStructured_isSome_iff noWrap]
  refine exists_congr fun finding => exists_congr fun func => and_congr_right fun enabled => ?_
  cases isNumber : finding.isNumber with
  | true =>
    rw [if_pos rfl]
    exact reached_iff_of_same isNumber enabled same
  | false => rfl

/-- The digits `10000000146`, a valid Turkish identity number. -/
def trIdText : List UInt8 := [0x31, 0x30, 0x30, 0x30, 0x30, 0x30, 0x30, 0x30, 0x31, 0x34, 0x36]

/-- An engine that looks for one Turkish identity number. -/
def trIdEngine : Engine where
  minCount finding := if finding = .trId then 1 else 0
  ssnNormal := false
  ssnStripped := false
  dlpHasRegex := fun _ => 0
  dlpGetRegexCount := fun _ => 0
  dlpHasIban := fun _ => 0
  dlpGetIbanCount := fun _ => 0

theorem structuredFunc_trIdEngine
    (enabled : structuredFunc trIdEngine finding = some func) :
    finding = .trId ∧ func = dlpHasTrId := by
  cases finding with
  | trId => exact ⟨rfl, (Option.some.inj enabled).symm⟩
  | creditCardNumber | ssn | regex | iban => cases enabled

theorem dlpHasTrId_le_one : dlpHasTrId buffer ≤ 1 := by
  rw [show dlpHasTrId buffer = NumberClass.trId.has buffer from rfl, NumberClass.has_eq]
  exact min_le_left _ _

theorem startsIn_behind_blanks
    (d : Detector)
    (full : length = readSize)
    (short : text.length ≤ readSize)
    (nonempty : text ≠ []) :
    d.startsIn 0 (reads (replicate length 0x20 ++ text)) =
      d.starts (replicate length 0x20 ++ text) := by
  have blank : isDigit 0x20 = false := rfl
  have pad := d.starts_replicate_append blank length []
  have empty : d.starts [] = [] := picks_of_le (Nat.le_refl 0)
  rw [append_nil, empty] at pad
  have firstRead : (replicate length (0x20 : UInt8)).length = readSize :=
    length_replicate.trans full
  rw [reads_append firstRead short nonempty, Detector.startsIn,
    Detector.startsIn, Detector.startsIn, pad, length_replicate,
    zero_add, d.starts_replicate_append blank]
  exact append_nil _

theorem sum_dlpHasTrId_lt
    (full : length = readSize)
    (short : text.length ≤ readSize)
    (nonempty : text ≠ []) :
    ((reads (replicate length 0x20 ++ text)).map dlpHasTrId).sum < 2 ^ 32 := by
  have firstRead : (replicate length (0x20 : UInt8)).length = readSize :=
    length_replicate.trans full
  have first := dlpHasTrId_le_one (replicate length 0x20)
  have second := dlpHasTrId_le_one text
  rw [reads_append firstRead short nonempty]
  simp only [map_cons, map_nil, sum_cons, sum_nil]
  omega

theorem dlpHasTrId_blanks
    (length : Nat)
    (text : List UInt8) :
    dlpHasTrId (replicate length 0x20 ++ text) = dlpHasTrId text := by
  have blank : isDigit 0x20 = false := rfl
  have counted := NumberClass.trId.has_eq (replicate length 0x20 ++ text)
  rw [NumberClass.count_replicate_append _ blank, ← NumberClass.has_eq] at counted
  exact counted

/-- Blanks up to the first edge, and the number behind it: it is reported. -/
theorem reads_keep_number_behind_edge :
    (∀ finding func, structuredFunc trIdEngine finding = some func →
      ((reads (replicate 8191 0x20 ++ trIdText)).map func).sum < 2 ^ 32) ∧
      (∀ c : NumberClass, c.SafeAtEdges (replicate 8191 0x20 ++ trIdText)) ∧
      (cliScanStructured trIdEngine (replicate 8191 0x20 ++ trIdText)).isSome = true := by
  have full : 8191 = readSize := rfl
  have short : trIdText.length ≤ readSize := by decide
  have nonempty : trIdText ≠ [] := by decide
  have found : 1 ≤ dlpHasTrId trIdText := by decide +kernel
  -- the length stays a variable, so that no list of that size is built
  generalize 8191 = length at full
  have agreement := reads_keep_numbers_iff_safe_edges (replicate length 0x20 ++ trIdText)
  have noWrap (finding : Finding) (func : List UInt8 → Nat)
      (enabled : structuredFunc trIdEngine finding = some func) :
      ((reads (replicate length 0x20 ++ trIdText)).map func).sum < 2 ^ 32 := by
    rw [(structuredFunc_trIdEngine enabled).2]
    exact sum_dlpHasTrId_lt full short nonempty
  have safe (c : NumberClass) : c.SafeAtEdges (replicate length 0x20 ++ trIdText) :=
    ((agreement.1 c).1).mp fun d _ => startsIn_behind_blanks d full short nonempty
  refine ⟨noWrap, safe, (agreement.2 trIdEngine noWrap safe).mpr ?_⟩
  refine ⟨.trId, dlpHasTrId, rfl, ?_⟩
  have isNumber : Finding.trId.isNumber = true := rfl
  rw [if_pos isNumber, dlpHasTrId_blanks]
  exact found

/-- Without a count nothing is found. -/
theorem cliScanStructured_trIdEngine
    (noneCounted : ((reads content).map dlpGetTrIdCount).sum = 0) :
    cliScanStructured trIdEngine content = none := by
  have noneFound : ((reads content).map dlpHasTrId).sum = 0 := by
    have positive : 1 ≤ ((reads content).map dlpHasTrId).sum ↔
        1 ≤ ((reads content).map dlpGetTrIdCount).sum :=
      NumberClass.trId.sum_has_pos_iff (reads content)
    omega
  have noWrap (finding : Finding) (func : List UInt8 → Nat)
      (enabled : structuredFunc trIdEngine finding = some func) :
      ((reads content).map func).sum < 2 ^ 32 := by
    rw [(structuredFunc_trIdEngine enabled).2, noneFound]
    exact Nat.two_pow_pos 32
  rw [← Option.not_isSome_iff_eq_none, cliScanStructured_isSome_iff noWrap]
  rintro ⟨finding, func, enabled, reached⟩
  obtain ⟨rfl, rfl⟩ := structuredFunc_trIdEngine enabled
  rw [noneFound] at reached
  exact absurd reached (by decide)

theorem dlpGetTrIdCount_blanks
    (length : Nat)
    (text : List UInt8) :
    dlpGetTrIdCount (replicate length 0x20 ++ text) = dlpGetTrIdCount text :=
  NumberClass.trId.count_replicate_append rfl length text

/-- A number across an edge is not counted. -/
theorem sum_dlpGetTrIdCount_cut
    (full : length + 5 = readSize) :
    ((reads (replicate length 0x20 ++ trIdText)).map dlpGetTrIdCount).sum = 0 := by
  have firstRead : (replicate length (0x20 : UInt8) ++ trIdText.take 5).length =
        readSize := by
    rw [length_append, length_replicate]
    exact full
  have short : (trIdText.drop 5).length ≤ readSize := by decide
  have nonempty : trIdText.drop 5 ≠ [] := by decide
  have twoReads := reads_append firstRead short nonempty
  rw [append_assoc, take_append_drop] at twoReads
  have first : dlpGetTrIdCount (trIdText.take 5) = 0 := by decide +kernel
  have second : dlpGetTrIdCount (trIdText.drop 5) = 0 := by decide +kernel
  rw [twoReads, map_cons, map_cons, map_nil, dlpGetTrIdCount_blanks, first, second]
  rfl

/--
Five digits of the number in the first read, six in the second: no read counts
it, nothing is reported, and one pass over the file counts one.
-/
theorem reads_lose_number_at_edge :
    ((reads (replicate 8186 0x20 ++ trIdText)).map dlpGetTrIdCount).sum = 0 ∧
      dlpGetTrIdCount (replicate 8186 0x20 ++ trIdText) = 1 ∧
      cliScanStructured trIdEngine (replicate 8186 0x20 ++ trIdText) =
        none := by
  have full : 8186 + 5 = readSize := rfl
  have oneCounted : dlpGetTrIdCount trIdText = 1 := by decide +kernel
  generalize 8186 = length at full
  have noneCounted := sum_dlpGetTrIdCount_cut full
  refine ⟨noneCounted, ?_, cliScanStructured_trIdEngine noneCounted⟩
  rw [dlpGetTrIdCount_blanks]
  exact oneCounted

end LibClamav.Dlp
