import LibClamav.FilterWindow
import LibClamav.ShiftOr

namespace LibClamav.Prefilter

open Ac List

/-!
# Filling and searching the prefilter

The filter as a Shift-Or automaton.  Adding a pattern only clears bits, so what
was in the filter stays in it, and both functions that add a pattern insert the
part they selected completely.
-/

variable {m added : Filter} {data : List UInt8} {j n : Nat}

/-- The tables of the Shift-Or automaton. -/
def Filter.tables (m : Filter) : ShiftOr.Tables Nat 8 := ⟨m.b, m.endMask⟩

/-- Everything in one filter is also in another. -/
def Filter.Includes (smaller larger : Filter) : Prop :=
  ShiftOr.Includes smaller.tables larger.tables

theorem clearBit_getLsbD
    (word : BitVec 8)
    (pos : Nat) :
    (word &&& ~~~(1#8 <<< pos)).getLsbD pos = false := by
  by_cases inside : pos < 8
  · simp [inside]
  · simp [BitVec.getLsbD_of_ge _ _ (Nat.le_of_not_lt inside)]

theorem clearBit_keeps
    {word : BitVec 8}
    {t : Nat}
    (pos : Nat)
    (isClear : word.getLsbD t = false) :
    (word &&& ~~~(1#8 <<< pos)).getLsbD t = false := by
  simp [isClear]

/-- A gram at a place takes nothing away. -/
theorem filterSetAtpos_includes
    (m : Filter)
    (pos val : Nat) :
    m.Includes (filterSetAtpos m pos val) := by
  unfold filterSetAtpos
  split
  · exact ShiftOr.Includes.refl _
  refine ⟨?_, fun q t isClear => isClear⟩
  intro q t isClear
  simp only [Filter.tables] at isClear ⊢
  split
  · exact clearBit_keeps pos isClear
  · exact isClear

theorem filterSetAtpos_sets
    (m : Filter)
    (pos val : Nat) :
    ((filterSetAtpos m pos val).b val).getLsbD pos = false := by
  unfold filterSetAtpos
  split_ifs with alreadySet
  · simpa [filterIsset] using alreadySet
  · simp only [↓reduceIte]
    exact clearBit_getLsbD _ pos

theorem filterSetEnd_includes
    (m : Filter)
    (pos val : Nat) :
    m.Includes (filterSetEnd m pos val) := by
  unfold filterSetEnd
  split
  · exact ShiftOr.Includes.refl _
  refine ⟨fun q t isClear => isClear, ?_⟩
  intro q t isClear
  simp only [Filter.tables] at isClear ⊢
  split
  · exact clearBit_keeps pos isClear
  · exact isClear

theorem filterSetEnd_sets
    (m : Filter)
    (pos val : Nat) :
    ((filterSetEnd m pos val).endMask val).getLsbD pos = false := by
  unfold filterSetEnd
  split_ifs with alreadySet
  · simpa [filterEndIsset] using alreadySet
  · simp only [↓reduceIte]
    exact clearBit_getLsbD _ pos

theorem foldl_establishes
    {ι : Type*}
    {add : Filter → ι → Filter}
    (Holds : ι → Filter → Prop)
    (grows : ∀ (m : Filter) item, m.Includes (add m item))
    (keeps : ∀ item m m', Filter.Includes m m' → Holds item m → Holds item m')
    (establishes : ∀ m item, Holds item (add m item))
    (items : List ι)
    (m : Filter) :
    m.Includes (items.foldl add m) ∧
      ∀ item ∈ items, Holds item (items.foldl add m) := by
  induction items generalizing m with
  | nil =>
    exact ⟨ShiftOr.Includes.refl _, by simp⟩
  | cons first rest ih =>
    obtain ⟨restIncludes, restHolds⟩ := ih (add m first)
    refine ⟨(grows m first).trans restIncludes, ?_⟩
    intro item mem
    rcases mem_cons.mp mem with isFirst | isLater
    · subst item
      exact keeps first _ _ restIncludes (establishes m first)
    · exact restHolds item isLater

/-- All grams of a place are set. -/
theorem setGrams_spec
    (m : Filter)
    (pos : Nat)
    (grams : List Nat) :
    m.Includes (setGrams m pos grams) ∧
      ∀ a ∈ grams, ((setGrams m pos grams).b a).getLsbD pos = false :=
  foldl_establishes (fun a m => (m.b a).getLsbD pos = false)
    (fun m a => filterSetAtpos_includes m pos a)
    (fun a _ _ includes isClear => includes.step a pos isClear)
    (fun m a => filterSetAtpos_sets m pos a) grams m

/-- So are all ends. -/
theorem setEnds_spec
    (m : Filter)
    (pos : Nat)
    (grams : List Nat) :
    m.Includes (setEnds m pos grams) ∧
      ∀ a ∈ grams, ((setEnds m pos grams).endMask a).getLsbD pos = false :=
  foldl_establishes (fun a m => (m.endMask a).getLsbD pos = false)
    (fun m a => filterSetEnd_includes m pos a)
    (fun a _ _ includes isClear => includes.final a pos isClear)
    (fun m a => filterSetEnd_sets m pos a) grams m

/-- The 2-grams at the places `j`, `j + 1`, ... of a buffer. -/
def gramsFrom (data : List UInt8) : Nat → Nat → List Nat
  | _, 0 => []
  | j, n + 1 => readInt16 data j :: gramsFrom data (j + 1) n

theorem gramsFrom_length
    (data : List UInt8)
    (n : Nat)
    (j) :
    (gramsFrom data j n).length = n := by
  induction n generalizing j with
  | zero =>
    rfl
  | succ n ih =>
    rw [gramsFrom, length_cons, ih]

theorem gramsFrom_append
    (data : List UInt8)
    (rest n : Nat)
    (j) :
    gramsFrom data j (n + rest) =
      gramsFrom data j n ++ gramsFrom data (j + n) rest := by
  induction n generalizing j with
  | zero =>
    rw [zero_add]
    rfl
  | succ n ih =>
    have behind : j + 1 + n = j + (n + 1) := by omega
    rw [Nat.add_right_comm, gramsFrom, gramsFrom, ih, behind]
    rfl

theorem gramsFrom_getElem
    (data : List UInt8)
    (n : Nat)
    (j i q : Nat)
    (atIndex : (gramsFrom data j n)[i]? = some q) :
    i < n ∧ q = readInt16 data (j + i) := by
  induction n generalizing j i q with
  | zero =>
    simp [gramsFrom] at atIndex
  | succ n ih =>
    cases i with
    | zero =>
      simp only [gramsFrom, getElem?_cons_zero, Option.some.injEq] at atIndex
      exact ⟨Nat.succ_pos n, atIndex.symm⟩
    | succ i =>
      obtain ⟨inside, gram⟩ := ih (j + 1) i q (by simpa [gramsFrom] using atIndex)
      refine ⟨Nat.succ_lt_succ inside, ?_⟩
      rw [gram, add_assoc, add_comm 1 i]

/-- The loop is a shift-or search. -/
theorem filterSearchLoop_eq
    (m : Filter)
    (data : List UInt8)
    (fuel : Nat)
    (j state) :
    filterSearchLoop m data fuel j state =
      ShiftOr.search m.tables (gramsFrom data j fuel) j state := by
  induction fuel generalizing j state with
  | zero =>
    rfl
  | succ fuel ih =>
    rw [filterSearchLoop, gramsFrom, ShiftOr.search]
    simp only [Filter.tables, ih]
    rfl

/-- What the tables allow is found. -/
theorem filterSearchExt_finds
    (nonempty : 0 < n)
    (short : n ≤ 8)
    (inside : j + n < data.length)
    (allows : ShiftOr.Allows m.tables (gramsFrom data j n)) :
    ∃ firstMatch, filterSearchExt m data = some firstMatch ∧ firstMatch < j + n := by
  have split : gramsFrom data 0 (data.length - 1) = gramsFrom data 0 j ++ (gramsFrom data j n ++
            gramsFrom data (j + n) (data.length - 1 - (j + n))) := by
    have lengths : data.length - 1 = j + (n + (data.length - 1 - (j + n))) := by omega
    conv_lhs => rw [lengths]
    rw [gramsFrom_append, gramsFrom_append, zero_add]
  obtain ⟨firstMatch, finds, bound⟩ := ShiftOr.search_finds
      (gramsFrom data (j + n) (data.length - 1 - (j + n)))
      (ne_nil_of_length_pos (by rw [gramsFrom_length]; exact nonempty))
      (by rw [gramsFrom_length]; exact short) allows
      (gramsFrom data 0 j) 0 0xff#8
  rw [gramsFrom_length, gramsFrom_length, zero_add] at bound
  refine ⟨firstMatch, ?_, bound⟩
  rw [filterSearchExt, filterSearchLoop_eq, split]
  exact finds

theorem allows_gramsFrom
    (steps : ∀ i < n, (m.b (readInt16 data (j + i))).getLsbD i = false)
    (ends : (m.endMask (readInt16 data (j + (n - 1)))).getLsbD (n - 1) = false) :
    ShiftOr.Allows m.tables (gramsFrom data j n) := by
  apply ShiftOr.allowsFrom_of_getElem
  · intro i q atIndex
    obtain ⟨inside, rfl⟩ := gramsFrom_getElem data n j i q atIndex
    rw [zero_add]
    exact steps i inside
  intro q isLast
  rw [getLast?_eq_getElem?, gramsFrom_length] at isLast
  obtain ⟨-, rfl⟩ := gramsFrom_getElem data n j (n - 1) q isLast
  rw [gramsFrom_length, zero_add]
  exact ends

/-- What a static pattern sets. -/
theorem filterAddStatic_spec
    {pattern : List UInt8}
    {used : Nat}
    (adds : filterAddStatic m pattern = some (added, used)) :
    m.Includes added ∧ ∃ begin n, 0 < n ∧ n ≤ 8 ∧ begin + n < pattern.length ∧
          ShiftOr.Allows added.tables (gramsFrom pattern begin n) := by
  unfold filterAddStatic at adds
  simp only at adds
  split at adds
  · cases adds
  rename_i longEnough
  generalize lenEq : min pattern.length maxPatLen = len at adds longEnough
  have bestBound := staticBest_bound m pattern len (staticMaxlen len) len 0 0xffffffff 0 (by omega)
  generalize staticBest m pattern len (staticMaxlen len) len 0
    0xffffffff 0 = bestPos at adds bestBound
  generalize usedEq : min (len - bestPos) maxSoPatLen = size at adds
  simp only [Option.some.injEq, Prod.mk.injEq] at adds
  obtain ⟨rfl, rfl⟩ := adds
  have sizeBounds : 2 ≤ size ∧ size ≤ 8 ∧ bestPos + size ≤ len := by
    unfold maxSoPatLen at usedEq
    omega
  obtain ⟨filledIncludes, filledSets⟩ := foldl_establishes (fun j m =>
        (m.b (readInt16 pattern (bestPos + j))).getLsbD j = false)
      (fun m j => filterSetAtpos_includes m j (readInt16 pattern (bestPos + j)))
      (fun j _ _ includes isClear => includes.step _ j isClear)
      (fun m j => filterSetAtpos_sets m j (readInt16 pattern (bestPos + j)))
      (range (size - 1)) m
  have endIncludes := filterSetEnd_includes ((range (size - 1)).foldl
        (fun m j => filterSetAtpos m j (readInt16 pattern (bestPos + j))) m)
      (size - 2) (readInt16 pattern (bestPos + (size - 2)))
  refine ⟨filledIncludes.trans endIncludes, bestPos, size - 1, by omega, by omega, by omega, ?_⟩
  apply allows_gramsFrom
  · intro i inside
    exact endIncludes.step _ i (filledSets i (mem_range.mpr inside))
  · exact filterSetEnd_sets _ _ _

/-- What a pattern with wildcards sets. -/
theorem filterAddAcpatt_spec
    {pat : AcPatt}
    {len : Nat}
    (wildcard : ¬ (((fullPattern pat).take maxPatLen).all fun p => !p.isWildcard) = true)
    (adds : filterAddAcpatt m pat = some (added, len)) :
    ∃ begin, selectWindow m (patternSpecs pat) = some (begin, len) ∧ m.Includes added ∧
        ∀ (data : List UInt8) (j : Nat), (∀ i < len - 1, readInt16 data (j + i) ∈
              windowGrams (patternSpecs pat) begin i) →
          ShiftOr.Allows added.tables (gramsFrom data j (len - 1)) := by
  unfold filterAddAcpatt at adds
  simp only [wildcard, ↓reduceIte, Bool.false_eq_true] at adds
  split at adds
  · cases adds
  split at adds
  · cases adds
  rename_i begin size selects
  simp only [Option.some.injEq, Prod.mk.injEq] at adds
  obtain ⟨rfl, rfl⟩ := adds
  obtain ⟨-, atLeastTwo, -⟩ := selectWindow_fits selects
  refine ⟨begin, selects, ?_⟩
  obtain ⟨filledIncludes, filledSets⟩ := foldl_establishes (fun i m =>
        ∀ a ∈ windowGrams (patternSpecs pat) begin i, (m.b a).getLsbD i = false)
      (fun m i => (setGrams_spec m i (windowGrams (patternSpecs pat) begin i)).1)
      (fun i _ _ includes allClear a mem => includes.step a i (allClear a mem))
      (fun m i => (setGrams_spec m i (windowGrams (patternSpecs pat) begin i)).2)
      (range (size - 1)) m
  obtain ⟨endIncludes, endSets⟩ := setEnds_spec ((range (size - 1)).foldl (fun m i =>
          setGrams m i (windowGrams (patternSpecs pat) begin i)) m)
      (size - 2) (windowGrams (patternSpecs pat) begin (size - 2))
  refine ⟨filledIncludes.trans endIncludes, ?_⟩
  intro data j contained
  apply allows_gramsFrom
  · intro i inside
    exact endIncludes.step _ i (filledSets i (mem_range.mpr inside) _ (contained i inside))
  · have lastPlace : size - 1 - 1 = size - 2 := by omega
    rw [lastPlace]
    exact endSets _ (contained (size - 2) (by omega))

end LibClamav.Prefilter
