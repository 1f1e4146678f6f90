import LibClamav.FilterInsert

namespace LibClamav.Prefilter

open Ac List

/-!
# No false negatives of the prefilter

The 2-grams that an instance of a pattern has in the selected part are all
inserted, unless the part has a negated alternative before its last character:
`SPEC_FOREACH` does not start its inner loop again, and then only the 2-grams
that begin with a zero byte are inserted.
-/

variable {spec : CharSpec} {b : UInt8} {str : List UInt8} {bp start : Nat} (i : Nat)

/-- A byte that a character of the filter stands for, alternatives included. -/
def SpecAccepts (spec : CharSpec) (b : Nat) : Prop :=
  if spec.negative then
    ∃ k ∈ specIndices spec, specIthChar spec k ≠ b
  else
    ∃ k ∈ specIndices spec, specIthChar spec k = b

/-- An alternative whose entries can be counted in one byte. -/
def CharSpec.Countable (spec : CharSpec) : Prop :=
  ∀ str, spec.alt = some str → 0 < str.length ∧ str.length ≤ 256

theorem mem_specIndices
    {k : Nat}
    (isIndex : k = spec.start + spec.step * i)
    (inside : k ≤ spec.finish)
    (moves : 0 < spec.step) :
    k ∈ specIndices spec := by
  have ordered : ¬ spec.finish < spec.start := by omega
  rw [specIndices, if_neg ordered, mem_map]
  refine ⟨i, ?_, isIndex.symm⟩
  rw [mem_range, Nat.lt_succ_iff, Nat.le_div_iff_mul_le moves, mul_comm]
  omega

/-- The grams of two accepted bytes. -/
theorem mem_specGrams
    {spec0 spec1 : CharSpec}
    {b0 b1 : Nat}
    (plain : spec0.negative = false)
    (accepts0 : SpecAccepts spec0 b0)
    (accepts1 : SpecAccepts spec1 b1)
    (isByte : b1 < 256) :
    b0 + 256 * b1 ∈ specGrams spec0 spec1 := by
  rw [SpecAccepts, plain] at accepts0
  obtain ⟨k0, index0, rfl⟩ := accepts0
  have rounds : (256 : Nat) = 255 + 1 := rfl
  have found (k1 : Nat) (accepted : (spec1.negative = true ∧ specIthChar spec1 k1 ≠ b1) ∨
          (spec1.negative = false ∧ specIthChar spec1 k1 = b1)) :
      specIthChar spec0 k0 + 256 * b1 ∈ specForeach spec0 spec1 k0 k1 := by
    unfold specForeach
    simp only [plain]
    rw [rounds, specRows]
    simp only [Bool.false_eq_true, ↓reduceIte, Nat.le_refl,
      Bool.false_and, Bool.not_false, Bool.true_and]
    apply mem_append_left
    apply mem_map_of_mem
    rcases accepted with ⟨negated, differs⟩ | ⟨positive, same⟩
    · simp only [negated, ↓reduceIte, Nat.sub_zero, mem_filter, mem_map, mem_range]
      refine ⟨⟨b1, isByte, zero_add b1⟩, ?_⟩
      simpa using fun equal => differs equal.symm
    · simp [positive, same]
  rw [specGrams, mem_flatMap]
  refine ⟨k0, index0, ?_⟩
  rw [mem_flatMap]
  unfold SpecAccepts at accepts1
  split at accepts1
  · rename_i negated
    obtain ⟨k1, index1, differs⟩ := accepts1
    exact ⟨k1, index1, found k1 (.inl ⟨negated, differs⟩)⟩
  · rename_i positive
    obtain ⟨k1, index1, same⟩ := accepts1
    exact ⟨k1, index1, found k1 (.inr ⟨by simpa using positive, same⟩)⟩

/-- An element of a pattern that stands for exactly one byte. -/
def SingleByte
    (specialTable : List Special)
    (p : PatChar)
    (specialcnt : Nat) :
    Prop :=
  p = .special → isAltChar specialTable specialcnt = true

/-- The number of special elements before the next element. -/
def nextSpecial (p : PatChar) (specialcnt : Nat) : Nat :=
  if p = .special then specialcnt + 1 else specialcnt

/--
An instance of a pattern of single-byte elements: every element accepts its
byte the way `AC_MATCH_CHAR` does.
-/
def InstanceFrom
    (specialTable : List Special)
    (data : List UInt8) :
    List PatChar → Nat → Nat → Prop
  | [], _, _ => True
  | p :: rest, bp, specialcnt =>
    bp < data.length ∧ SingleByte specialTable p specialcnt ∧
      (acMatchChar data specialTable p bp specialcnt).matched = true ∧
      InstanceFrom specialTable data rest (bp + 1) (nextSpecial p specialcnt)

instance decidableInstanceFrom (specialTable : List Special) (data : List UInt8) :
    (elements : List PatChar) → (bp specialcnt : Nat) →
      Decidable (InstanceFrom specialTable data elements bp specialcnt)
  | [], _, _ => isTrue trivial
  | p :: rest, bp, specialcnt =>
    have := decidableInstanceFrom specialTable data rest (bp + 1)
      (nextSpecial p specialcnt)
    inferInstanceAs (Decidable (_ ∧ (_ → _) ∧ _ ∧ _))

theorem findAltChar_mem
    (str : List UInt8)
    (finds : findAltChar b str = true) :
    ∃ i, i < str.length ∧ byteAt str i = b := by
  induction str with
  | nil => cases finds
  | cons c rest ih =>
    rw [findAltChar] at finds
    split_ifs at finds with same above
    · exact ⟨0, Nat.succ_pos _, same⟩
    · obtain ⟨i, inside, atIndex⟩ := ih finds
      exact ⟨i + 1, Nat.succ_lt_succ inside, atIndex⟩

theorem findAltChar_head
    (nonempty : 0 < str.length)
    (misses : findAltChar b str = false) :
    byteAt str 0 ≠ b := by
  cases str with
  | nil => cases nonempty
  | cons c rest =>
    rintro rfl
    simp [findAltChar, byteAt] at misses

/-- A byte that matches alternatives is accepted. -/
theorem specAccepts_altChar
    {negative : Bool}
    (nonempty : 0 < str.length)
    (countable : str.length ≤ 256)
    (matched : (if findAltChar b str then !negative else negative) = true) :
    SpecAccepts
      { alt := some str, start := 0, finish := (str.length + 255) % 256,
        negative := negative } b.toNat := by
  have lastIndex : (str.length + 255) % 256 = str.length - 1 := by omega
  have indexed (i : Nat) (inside : i < str.length) : i ∈ specIndices
        { alt := some str, start := 0, finish := (str.length + 255) % 256,
          negative := negative } := by
    apply mem_specIndices i
    · simp
    · simp only [lastIndex]
      omega
    · exact Nat.one_pos
  cases negative with
  | true =>
    have misses : findAltChar b str = false := by simpa using matched
    refine ⟨0, indexed 0 nonempty, ?_⟩
    intro same
    exact findAltChar_head nonempty misses (UInt8.toNat_inj.mp same)
  | false =>
    have finds : findAltChar b str = true := by simpa using matched
    obtain ⟨i, inside, atIndex⟩ := findAltChar_mem str finds
    refine ⟨i, indexed i inside, ?_⟩
    simp [specIthChar, atIndex]

theorem specAccepts_range
    {b : Nat}
    (isRange : spec.alt = none)
    (plain : spec.negative = false)
    (isIndex : b = spec.start + spec.step * i)
    (inside : b ≤ spec.finish)
    (moves : 0 < spec.step)
    (isByte : b < 256) :
    SpecAccepts spec b := by
  rw [SpecAccepts, plain]
  refine ⟨b, mem_specIndices i isIndex inside moves, ?_⟩
  rw [specIthChar, isRange]
  exact Nat.mod_eq_of_lt isByte

variable {specialTable : List Special} {data : List UInt8} (elements : List PatChar)

/--
The representation of a single-byte element accepts every byte that
`AC_MATCH_CHAR` matches.  The cases are the kinds of elements.
-/
theorem charSpecs_head
    {p : PatChar}
    {specialcnt : Nat}
    (rest : List PatChar)
    (singleByte : SingleByte specialTable p specialcnt)
    (matched : (acMatchChar data specialTable p bp specialcnt).matched = true) :
    ∃ spec, charSpecs specialTable (p :: rest) specialcnt =
          spec :: charSpecs specialTable rest (nextSpecial p specialcnt) ∧
        (spec.Countable → SpecAccepts spec (byteAt data bp).toNat) := by
  have isByte := (byteAt data bp).toNat_lt
  cases p with
  | char c =>
    refine ⟨_, rfl, fun _ => ?_⟩
    have same : c = byteAt data bp := by simpa [acMatchChar] using matched
    rw [same]
    exact specAccepts_range 0 rfl rfl rfl (Nat.le_refl _) Nat.one_pos isByte
  | ignore =>
    refine ⟨_, rfl, fun _ => ?_⟩
    refine specAccepts_range (byteAt data bp).toNat rfl rfl ?_ ?_ Nat.one_pos isByte
    · simp
    · show (byteAt data bp).toNat ≤ 255
      omega
  | nibbleHigh c =>
    refine ⟨_, rfl, fun _ => ?_⟩
    have same : c.toNat / 16 = (byteAt data bp).toNat / 16 := by simpa [acMatchChar] using matched
    refine specAccepts_range ((byteAt data bp).toNat % 16) rfl rfl ?_ ?_ Nat.one_pos isByte
    · simp only
      omega
    · simp only
      omega
  | nibbleLow c =>
    refine ⟨_, rfl, fun _ => ?_⟩
    have same : c.toNat % 16 = (byteAt data bp).toNat % 16 := by simpa [acMatchChar] using matched
    refine specAccepts_range ((byteAt data bp).toNat / 16) rfl rfl ?_ ?_ (by simp) isByte
    · simp only
      omega
    · simp only
      omega
  | special =>
    have altChar := singleByte rfl
    unfold isAltChar at altChar
    split at altChar
    · rename_i str negative atIndex
      refine ⟨{ alt := some str, start := 0,
                finish := (str.length + 255) % 256,
                negative := negative }, ?_, ?_⟩
      · simp [charSpecs, atIndex, nextSpecial]
      intro countable
      obtain ⟨nonempty, small⟩ := countable str rfl
      apply specAccepts_altChar nonempty small
      simpa [acMatchChar, atIndex, acMatchSpecial] using matched
    · cases altChar

/-- An instance is accepted by the specs. -/
theorem charSpecs_accepts
    (bp specialcnt : Nat)
    (isInstance : InstanceFrom specialTable data elements bp specialcnt) :
    (charSpecs specialTable elements specialcnt).length = elements.length ∧ ∀ i < elements.length,
      (specAt (charSpecs specialTable elements specialcnt) i).Countable →
      SpecAccepts (specAt (charSpecs specialTable elements specialcnt) i)
        (byteAt data (bp + i)).toNat := by
  induction elements generalizing bp specialcnt with
  | nil =>
    exact ⟨rfl, by simp⟩
  | cons p rest ih =>
    obtain ⟨-, singleByte, matched, restInstance⟩ := isInstance
    obtain ⟨spec, shape, accepts⟩ := charSpecs_head rest singleByte matched
    obtain ⟨restLength, restAccepts⟩ := ih (bp + 1) (nextSpecial p specialcnt) restInstance
    rw [shape]
    refine ⟨by rw [length_cons, length_cons, restLength], ?_⟩
    intro i inside countable
    cases i with
    | zero =>
      exact accepts countable
    | succ i =>
      have place : bp + (i + 1) = bp + 1 + i := by omega
      rw [place]
      exact restAccepts i (Nat.lt_of_succ_lt_succ inside) countable

theorem InstanceFrom.length_le :
    ∀ (bp specialcnt : Nat), elements ≠ [] → InstanceFrom specialTable data elements bp specialcnt →
      bp + elements.length ≤ data.length := by
  induction elements with
  | nil =>
    intro bp specialcnt nonempty
    exact absurd rfl nonempty
  | cons p rest ih =>
    intro bp specialcnt _ isInstance
    obtain ⟨inside, -, -, restInstance⟩ := isInstance
    rw [length_cons]
    by_cases atEnd : rest = []
    · subst rest
      exact inside
    · have restFits := ih (bp + 1) _ atEnd restInstance
      omega

theorem InstanceFrom.take
    (n bp specialcnt : Nat)
    (isInstance : InstanceFrom specialTable data elements bp specialcnt) :
    InstanceFrom specialTable data (elements.take n) bp specialcnt := by
  induction elements generalizing n bp specialcnt with
  | nil =>
    rw [take_nil]
    trivial
  | cons p rest ih =>
    cases n with
    | zero => trivial
    | succ n =>
      obtain ⟨inside, singleByte, matched, restInstance⟩ := isInstance
      exact ⟨inside, singleByte, matched, ih n (bp + 1) _ restInstance⟩

/-- An instance without wildcards has the bytes. -/
theorem InstanceFrom.bytes
    (bp specialcnt : Nat)
    (noWildcard : (elements.all fun p => !p.isWildcard) = true)
    (isInstance : InstanceFrom specialTable data elements bp specialcnt) :
    (elements.filterMap PatChar.byte?).length = elements.length ∧
      elements.filterMap PatChar.byte? <+: data.drop bp := by
  induction elements generalizing bp specialcnt with
  | nil => exact ⟨rfl, nil_prefix⟩
  | cons p rest ih =>
    obtain ⟨inside, -, matched, restInstance⟩ := isInstance
    rw [all_cons, Bool.and_eq_true] at noWildcard
    obtain ⟨plain, restPlain⟩ := noWildcard
    obtain ⟨restLength, restBytes⟩ := ih (bp + 1) _ restPlain restInstance
    cases p with
    | char c =>
      have same : c = byteAt data bp := by simpa [acMatchChar] using matched
      rw [byteAt, getD_eq_getElem?_getD, getElem?_eq_getElem inside] at same
      rw [filterMap_cons_some (show PatChar.byte? (.char c) = some c from rfl),
        drop_eq_getElem_cons inside]
      exact ⟨congrArg Nat.succ restLength, cons_prefix_cons.mpr ⟨same, restBytes⟩⟩
    | ignore | special | nibbleHigh c | nibbleLow c => cases plain

/-! Runs that fill a filter. -/

/-- One call that adds a pattern. -/
inductive FilterOp where
  | static (pattern : List UInt8)
  | acpatt (pat : AcPatt)

variable {op : FilterOp}

/-- The call itself; no result is its `-1`. -/
def filterAdd (m : Filter) : FilterOp → Option Filter
  | .static pattern => (filterAddStatic m pattern).map Prod.fst
  | .acpatt pat => (filterAddAcpatt m pat).map Prod.fst

/-- Calls in order, each returning something other than `-1`. -/
def filterAddAll (m : Filter) : List FilterOp → Option Filter
  | [] => some m
  | op :: rest => (filterAdd m op).bind fun added => filterAddAll added rest

/-- The number of elements of an added pattern. -/
def FilterOp.length : FilterOp → Nat
  | .static pattern => pattern.length
  | .acpatt pat => (fullPattern pat).length

/-- An instance of an added pattern at a position of a buffer. -/
def FilterOp.InstanceAt (data : List UInt8) (start : Nat) : FilterOp → Prop
  | .static pattern => pattern <+: data.drop start
  | .acpatt pat => InstanceFrom pat.specialTable data (fullPattern pat) start 0

/--
The selected part has no negated alternative before its last character, and no
alternative with no or more than 256 entries.
-/
def WindowSafe (chars : List CharSpec) (begin len : Nat) : Prop :=
  (∀ i < len - 1, (specAt chars (begin + i)).negative = false) ∧
    ∀ i < len, (specAt chars (begin + i)).Countable

/-- The part that a call would select in the present filter is safe. -/
def FilterOp.Safe (m : Filter) : FilterOp → Prop
  | .static _ => True
  | .acpatt pat =>
    ∀ begin len, selectWindow m (patternSpecs pat) = some (begin, len) →
      WindowSafe (patternSpecs pat) begin len

/-- Every call of a run is safe in the filter that it finds. -/
def RunSafe (m : Filter) : List FilterOp → Prop
  | [] => True
  | op :: rest =>
    op.Safe m ∧ ∀ added, filterAdd m op = some added → RunSafe added rest

/-- The filter has the 2-grams of a part of every instance of a pattern. -/
def Catches (m : Filter) (op : FilterOp) : Prop :=
  ∀ (data : List UInt8) (start : Nat), op.InstanceAt data start → ∃ j n,
      0 < n ∧ n ≤ 8 ∧ j + n < start + op.length ∧ j + n < data.length ∧
        ShiftOr.Allows m.tables (gramsFrom data j n)

theorem Catches.mono
    {smaller larger : Filter}
    (includes : smaller.Includes larger)
    (catches : Catches smaller op) :
    Catches larger op := by
  intro data start isInstance
  obtain ⟨j, n, positive, short, inPattern, inData, allows⟩ := catches data start isInstance
  exact ⟨j, n, positive, short, inPattern, inData, ShiftOr.AllowsFrom.mono includes _ 0 allows⟩

theorem gramsFrom_congr
    {left right : List UInt8}
    (n : Nat)
    (j k : Nat)
    (same : ∀ i ≤ n, byteAt left (j + i) = byteAt right (k + i)) :
    gramsFrom left j n = gramsFrom right k n := by
  induction n generalizing j k with
  | zero =>
    rfl
  | succ n ih =>
    have here := same 0 (Nat.zero_le _)
    have next := same 1 (by omega)
    rw [add_zero, add_zero] at here
    rw [gramsFrom, gramsFrom, readInt16, readInt16, here, next, ih (j + 1) (k + 1)]
    intro i inside
    have later := same (i + 1) (by omega)
    rwa [add_comm i 1, ← add_assoc, ← add_assoc] at later

variable {m added : Filter}

/-- A static pattern that is added is caught. -/
theorem filterAddStatic_catches
    {pattern : List UInt8}
    {used : Nat}
    (adds : filterAddStatic m pattern = some (added, used)) :
    Catches added (.static pattern) := by
  rintro data start ⟨behind, shape⟩
  obtain ⟨-, begin, n, positive, short, inside, allows⟩ := filterAddStatic_spec adds
  have fits := congrArg length shape
  rw [length_append, length_drop] at fits
  have inPattern : start + begin + n < start + pattern.length := by omega
  refine ⟨start + begin, n, positive, short, inPattern, by omega, ?_⟩
  rwa [← gramsFrom_congr n begin (start + begin)]
  intro i atMost
  rw [← byteAt_append_left behind (by omega), shape, byteAt_drop, add_assoc]

theorem leadingSpecials_instance
    {elements : List PatChar}
    (isInstance : InstanceFrom specialTable data elements bp 0) :
    leadingSpecials specialTable elements 0 = 0 := by
  cases elements with
  | nil => rfl
  | cons p rest =>
    obtain ⟨-, singleByte, -, -⟩ := isInstance
    cases p with
    | special =>
      rw [leadingSpecials, if_pos (singleByte rfl)]
    | char c | ignore | nibbleHigh c | nibbleLow c => rfl

variable {pat : AcPatt}

theorem patternSpecs_instance
    (isInstance : InstanceFrom pat.specialTable data (fullPattern pat) start 0) :
    patternSpecs pat = charSpecs pat.specialTable ((fullPattern pat).take maxPatLen) 0 := by
  unfold patternSpecs
  split_ifs with noPrefix
  · have wholePattern : fullPattern pat = pat.pattern := by
      rw [fullPattern, isEmpty_iff.mp noPrefix, nil_append]
    rw [wholePattern] at isInstance ⊢
    rw [leadingSpecials_instance isInstance]
    rfl
  · rfl

/-- So is a pattern with wildcards. -/
theorem filterAddAcpatt_catches
    {len : Nat}
    (safe : FilterOp.Safe m (.acpatt pat))
    (adds : filterAddAcpatt m pat = some (added, len)) :
    Catches added (.acpatt pat) := by
  intro data start isInstance
  have frontInstance := InstanceFrom.take (fullPattern pat) maxPatLen start 0 isInstance
  have frontLength : ((fullPattern pat).take maxPatLen).length ≤ (fullPattern pat).length := by
    rw [length_take]
    exact min_le_right _ _
  by_cases noWildcard : (((fullPattern pat).take maxPatLen).all fun p => !p.isWildcard) = true
  · -- no wildcard in sight: the static heuristics are used
    obtain ⟨bytesLength, bytes⟩ := InstanceFrom.bytes _ start 0 noWildcard frontInstance
    unfold filterAddAcpatt at adds
    simp only [noWildcard, ↓reduceIte] at adds
    rw [← bytesLength] at frontLength
    obtain ⟨j, n, positive, short, inPattern, inData, allows⟩ :=
      filterAddStatic_catches adds data start bytes
    exact ⟨j, n, positive, short,
      Nat.lt_of_lt_of_le inPattern (Nat.add_le_add_left frontLength start),
      inData, allows⟩
  · obtain ⟨begin, selects, -, contains⟩ := filterAddAcpatt_spec noWildcard adds
    obtain ⟨inPattern, atLeastTwo, short⟩ := selectWindow_fits selects
    obtain ⟨plain, countable⟩ := safe begin len selects
    rw [patternSpecs_instance isInstance] at contains inPattern plain countable
    obtain ⟨specsLength, accepts⟩ := charSpecs_accepts _ start 0 frontInstance
    rw [specsLength] at inPattern
    have nonempty : (fullPattern pat).take maxPatLen ≠ [] := by
      intro empty
      rw [empty, length_nil] at inPattern
      omega
    have fits := InstanceFrom.length_le _ start 0 nonempty frontInstance
    have shortGrams : len - 1 ≤ 8 := by
      unfold maxSoPatLen at short
      omega
    refine ⟨start + begin, len - 1, by omega, shortGrams, ?_, by omega, ?_⟩
    · show start + begin + (len - 1) < start + (fullPattern pat).length
      omega
    apply contains
    intro i inside
    have accepts0 := accepts (begin + i) (by omega) (countable i (by omega))
    have accepts1 := accepts (begin + i + 1) (by omega) (by
        rw [add_assoc]
        exact countable (i + 1) (by omega))
    rw [windowGrams, readInt16, add_assoc start, add_assoc start]
    exact mem_specGrams (plain i inside) accepts0 accepts1 (UInt8.toNat_lt _)

/-- Adding keeps what is caught and catches the pattern. -/
theorem filterAdd_step
    (safe : op.Safe m)
    (adds : filterAdd m op = some added) :
    m.Includes added ∧ Catches added op := by
  cases op with
  | static pattern =>
    obtain ⟨⟨filled, used⟩, runs, rfl⟩ := Option.map_eq_some_iff.mp adds
    exact ⟨(filterAddStatic_spec runs).1, filterAddStatic_catches runs⟩
  | acpatt pat =>
    obtain ⟨⟨filled, len⟩, runs, rfl⟩ := Option.map_eq_some_iff.mp adds
    refine ⟨?_, filterAddAcpatt_catches safe runs⟩
    by_cases noWildcard : (((fullPattern pat).take maxPatLen).all fun p => !p.isWildcard) = true
    · unfold filterAddAcpatt at runs
      simp only [noWildcard, ↓reduceIte] at runs
      exact (filterAddStatic_spec runs).1
    · obtain ⟨-, -, includes, -⟩ := filterAddAcpatt_spec noWildcard runs
      exact includes

/-- All patterns that are added are caught. -/
theorem filterAddAll_run
    (ops : List FilterOp)
    (m final : Filter)
    (safe : RunSafe m ops)
    (runs : filterAddAll m ops = some final) :
    m.Includes final ∧ ∀ op ∈ ops, Catches final op := by
  induction ops generalizing m final with
  | nil =>
    cases runs
    exact ⟨ShiftOr.Includes.refl _, by simp⟩
  | cons first rest ih =>
    obtain ⟨added, adds, restRuns⟩ := Option.bind_eq_some_iff.mp runs
    obtain ⟨firstSafe, restSafe⟩ := safe
    obtain ⟨firstIncludes, firstCatches⟩ := filterAdd_step firstSafe adds
    obtain ⟨restIncludes, restCatches⟩ := ih added final (restSafe added adds) restRuns
    refine ⟨firstIncludes.trans restIncludes, ?_⟩
    intro op mem
    rcases mem_cons.mp mem with isFirst | isLater
    · subst op
      exact firstCatches.mono restIncludes
    · exact restCatches op isLater

/--
A filter filled by a run whose selected parts are safe has no false negatives:
a buffer with an instance of an added pattern is found no later than at the
last 2-gram of the instance.
-/
theorem filter_search_finds_instances
    (ops : List FilterOp)
    (m : Filter)
    (runs : filterAddAll filterInit ops = some m)
    (safe : RunSafe filterInit ops)
    (op : FilterOp)
    (added : op ∈ ops)
    (data : List UInt8)
    (start : Nat)
    (isInstance : op.InstanceAt data start) :
    ∃ firstMatch, filterSearchExt m data = some firstMatch ∧
        firstMatch + 2 ≤ start + op.length := by
  obtain ⟨-, allCaught⟩ := filterAddAll_run ops filterInit m safe runs
  obtain ⟨j, n, positive, short, inPattern, inData, allows⟩ :=
    allCaught op added data start isInstance
  obtain ⟨firstMatch, finds, bound⟩ := filterSearchExt_finds positive short inData allows
  exact ⟨firstMatch, finds, by omega⟩

/-- A pattern without negations is safe. -/
theorem safe_of_plain
    (plain : ∀ spec ∈ patternSpecs pat, spec.negative = false ∧ spec.Countable)
    (m : Filter) :
    FilterOp.Safe m (.acpatt pat) := by
  have plainAt (k : Nat) : (specAt (patternSpecs pat) k).negative = false ∧
        (specAt (patternSpecs pat) k).Countable := by
    unfold specAt
    rw [getD_eq_getElem?_getD]
    cases atIndex : (patternSpecs pat)[k]? with
    | none =>
      refine ⟨rfl, ?_⟩
      intro str isAlternative
      cases isAlternative
    | some spec =>
      exact plain spec (mem_of_getElem? atIndex)
  intro begin len _
  exact ⟨fun i _ => (plainAt (begin + i)).1, fun i _ => (plainAt (begin + i)).2⟩

/-- The pattern `(61|62)63??`. -/
def alternativePatt : AcPatt :=
  { pattern := [.special, .char 0x63, .ignore]
    specialTable := [⟨.altChar [0x61, 0x62], false⟩] }

theorem alternativePatt_safe (m : Filter) : FilterOp.Safe m (.acpatt alternativePatt) := by
  apply safe_of_plain
  intro spec mem
  have shape : patternSpecs alternativePatt =
        [{ alt := some [0x61, 0x62], start := 0, finish := 1 },
          { start := 0x63, finish := 0x63 }, { start := 0, finish := 0xff }] := by
    decide
  rw [shape] at mem
  simp only [mem_cons, not_mem_nil, or_false] at mem
  rcases mem with rfl | rfl | rfl
  · refine ⟨rfl, ?_⟩
    rintro str ⟨⟩
    decide
  · exact ⟨rfl, by rintro str ⟨⟩⟩
  · exact ⟨rfl, by rintro str ⟨⟩⟩

/-- Two patterns, and an instance of the second one behind other bytes. -/
theorem filter_search_finds_alternative : ∃ m firstMatch, filterAddAll filterInit
          [.static [0x70, 0x71, 0x72], .acpatt alternativePatt] = some m ∧
        filterSearchExt m [0x00, 0x00, 0x62, 0x63, 0x64] = some firstMatch ∧
        firstMatch + 2 ≤ 2 + 3 := by
  have returns :
      (filterAddAll filterInit [.static [0x70, 0x71, 0x72], .acpatt alternativePatt]).isSome =
          true := by
    decide
  obtain ⟨m, runs⟩ := Option.isSome_iff_exists.mp returns
  obtain ⟨firstMatch, finds, bound⟩ := filter_search_finds_instances
      [.static [0x70, 0x71, 0x72], .acpatt alternativePatt] m runs
      ⟨trivial, fun added _ => ⟨alternativePatt_safe added, fun _ _ => trivial⟩⟩
      (.acpatt alternativePatt) (by simp)
      [0x00, 0x00, 0x62, 0x63, 0x64] 2
      (show InstanceFrom _ _ _ _ _ by decide)
  exact ⟨m, firstMatch, runs, finds, bound⟩

/-- The pattern `!(61|62)0000`. -/
def negatedPatt : AcPatt :=
  { pattern := [.special, .char 0x00, .char 0x00]
    specialTable := [⟨.altChar [0x61, 0x62], true⟩] }

/-- The bytes `63 00 00` are an instance of it, and the filter misses them. -/
theorem filter_misses_negatedPatt : ((filterAddAll filterInit [.acpatt negatedPatt]).map fun m =>
        filterSearchExt m [0x63, 0x00, 0x00]) = some none ∧
      (FilterOp.acpatt negatedPatt).InstanceAt [0x63, 0x00, 0x00] 0 := by
  refine ⟨by decide +kernel, ?_⟩
  show InstanceFrom _ _ _ _ _
  decide

end LibClamav.Prefilter
