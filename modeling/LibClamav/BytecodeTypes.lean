import LibClamav.BytecodeTypesSource

namespace LibClamav.Bytecode

open List

/-!
# Type identifiers inside the table

`readTypeID` accepts identifiers below `num_types + 69`, the table ends at
`num_types + 65`, the loop of `parseTypes` leaves out its last entry, and the
function parser accepts every number.  An identifier is safe to look up if it and
all that it contains are below the last entry that is set.
-/

variable {outside : Outside} {text : List UInt8} {entry : TypeEntry} {id : Nat}

theorem bind_eq_ok_iff
    {ε α β : Type}
    {x : Except ε α}
    {f : α → Except ε β}
    {b : β} :
    x >>= f = .ok b ↔ ∃ a, x = .ok a ∧ f a = .ok b := by
  cases x with
  | error status => exact ⟨fun never => (by cases never), fun ⟨_, never, _⟩ => by cases never⟩
  | ok a => exact ⟨fun isOk => ⟨a, rfl, isOk⟩, fun ⟨_, isOk, rest⟩ => by cases isOk; exact rest⟩

/-- Entry `i` is set. -/
def TypeTable.IsSet (table : TypeTable) (i : Nat) : Prop :=
  ∃ entry, table.entries[i]? = some (some entry)

/-- The table with all its entries before `next` set, and the static ones. -/
structure TypeTable.Filled (table : TypeTable) (numTypes next : Nat) : Prop where
  isCount : table.numTypes = numTypes
  isLength : table.entries.length = numTypes
  isSet : ∀ i, table.IsSet i ↔ i < numTypes ∧ (i < numStaticTypes ∨ i < next)
  arraysContain : ∀ (i : Nat) (entry : TypeEntry), table.entries[i]? = some (some entry) →
    entry.kind = .arrayType → entry.containedTypes ≠ []

theorem addStaticTypes_filled
    (numTypes startTid : Nat) :
    (addStaticTypes ⟨numTypes, startTid, replicate numTypes none⟩).Filled numTypes
      numStaticTypes := by
  have isEntry (i : Nat) :
      (addStaticTypes ⟨numTypes, startTid, replicate numTypes none⟩).entries[i]? =
        if i < numTypes then
          some ((containedTy[i]?).map fun contained => ⟨.pointerType, [contained], 1, 8, 8⟩)
        else none := by
    rw [addStaticTypes, getElem?_mapIdx, getElem?_replicate]
    by_cases inside : i < numTypes
    · rw [if_pos inside, if_pos inside]
      cases containedTy[i]? with
      | none | some contained => rfl
    · rw [if_neg inside, if_neg inside]
      rfl
  have isStatic (i : Nat) : (∃ contained, containedTy[i]? = some contained) ↔
      i < numStaticTypes := by
    rw [← Option.isSome_iff_exists, isSome_getElem?]
    rfl
  refine ⟨rfl, by simp [addStaticTypes], fun i => ?_, fun i entry isThere isArray => ?_⟩
  · rw [TypeTable.IsSet, or_self, ← isStatic, isEntry]
    split
    · rename_i inside
      cases containedTy[i]? with
      | none => simp
      | some contained => simp [inside]
    · rename_i notInside
      simp [notInside]
  rw [isEntry] at isThere
  split at isThere
  · obtain ⟨contained, -, rfl⟩ := Option.map_eq_some_iff.mp (Option.some.inj isThere)
    cases isArray
  · cases isThere

/-- An entry contains types of the table. -/
theorem parseEntry_contains
    {table : TypeTable}
    {rest : List UInt8}
    (parses : parseEntry outside table text = .ok (entry, rest))
    (isArray : entry.kind = .arrayType) :
    entry.containedTypes ≠ [] := by
  rw [parseEntry, bind_eq_ok_iff] at parses
  obtain ⟨⟨t, text⟩, -, parses⟩ := parses
  dsimp only at parses
  split at parses
  case h_4 =>
    obtain ⟨_, -, parses⟩ := bind_eq_ok_iff.mp parses
    obtain ⟨_, -, isOk⟩ := bind_eq_ok_iff.mp parses
    cases isOk
    exact cons_ne_nil _ _
  case h_6 => cases parses
  all_goals
    obtain ⟨_, -, isOk⟩ := bind_eq_ok_iff.mp parses
    cases isOk
    cases isArray

theorem TypeTable.Filled.set
    {table : TypeTable}
    {numTypes next : Nat}
    (filled : table.Filled numTypes next)
    (isNext : numStaticTypes ≤ next)
    (contains : entry.kind = .arrayType → entry.containedTypes ≠ []) :
    TypeTable.Filled { table with entries := table.entries.set next (some entry) } numTypes
      (next + 1) := by
  refine ⟨filled.isCount, by simp [filled.isLength], fun i => ?_, fun i other isThere => ?_⟩
  · rw [TypeTable.IsSet, getElem?_set]
    split
    · rename_i same
      subst same
      rw [filled.isLength]
      split
      · rename_i inside
        simp [inside]
      · rename_i notInside
        simp [notInside]
    rename_i differs
    have isSet := filled.isSet i
    rw [TypeTable.IsSet] at isSet
    rw [isSet]
    omega
  · rw [getElem?_set] at isThere
    split at isThere
    · split at isThere
      · cases isThere
        exact contains
      · cases isThere
    · exact filled.arraysContain i other isThere

/-- The entries fill the table. -/
theorem parseEntries_filled
    {numTypes : Nat}
    (count : Nat)
    {next : Nat}
    {table final : TypeTable}
    {text : List UInt8}
    (filled : table.Filled numTypes next)
    (isNext : numStaticTypes ≤ next)
    (parses : parseEntries outside count next table text = .ok final) :
    final.Filled numTypes (next + count) := by
  induction count generalizing next table final text with
  | zero =>
    cases parses
    exact filled
  | succ count ih =>
    rw [parseEntries, bind_eq_ok_iff] at parses
    obtain ⟨⟨entry, rest⟩, parsesEntry, parses⟩ := parses
    have later := ih (filled.set isNext (parseEntry_contains parsesEntry))
      (Nat.le_succ_of_le isNext) parses
    rw [Nat.add_right_comm] at later
    exact later

theorem parseEntries_startTid
    (count : Nat)
    {next : Nat}
    {table final : TypeTable}
    {text : List UInt8}
    (parses : parseEntries outside count next table text = .ok final) :
    final.startTid = table.startTid := by
  induction count generalizing next table text with
  | zero =>
    cases parses
    rfl
  | succ count inductionHypothesis =>
    rw [parseEntries, bind_eq_ok_iff] at parses
    obtain ⟨⟨entry, rest⟩, -, parses⟩ := parses
    dsimp only at parses
    have sameStart := inductionHypothesis parses
    exact sameStart

/-- An accepted section starts its types at 69. -/
theorem parseTypes_startTid
    {numTypes : Nat}
    {table : TypeTable}
    (parses : parseTypes outside numTypes text = .ok table) :
    table.startTid = bcStartTid := by
  unfold parseTypes at parses
  split at parses
  · obtain ⟨⟨startTid, text⟩, -, parses⟩ := bind_eq_ok_iff.mp parses
    dsimp only at parses
    split at parses
    · cases parses
    rename_i isStart
    exact (parseEntries_startTid _ parses).trans (not_not.mp isStart)
  · cases parses

/-- A section that is parsed fills all but the last entry. -/
theorem parseTypes_filled
    {numTypes : UInt32}
    {table : TypeTable}
    (parses : parseTypes outside numTypes.toNat text = .ok table) :
    table.Filled numTypes.toNat (numTypes.toNat - 1) := by
  unfold parseTypes at parses
  split at parses
  · obtain ⟨⟨startTid, text⟩, -, parses⟩ := bind_eq_ok_iff.mp parses
    dsimp only at parses
    split at parses
    · cases parses
    have filled := parseEntries_filled _
      (addStaticTypes_filled numTypes.toNat startTid) (le_rfl) parses
    have isLast : lastEntry numTypes.toNat = numTypes.toNat - 1 ∨ numTypes.toNat = 0 := by
      have isSmall := numTypes.toNat_lt
      rw [lastEntry]
      omega
    refine ⟨filled.isCount, filled.isLength, fun i => ?_, filled.arraysContain⟩
    rw [filled.isSet, bcStartTid, numStaticTypes]
    omega
  · cases parses

/-- `Reaches id u`: `u` is `id` or an element type of what it reaches. -/
inductive TypeTable.Reaches (table : TypeTable) : Nat → Nat → Prop where
  | refl (id : Nat) : Reaches table id id
  | step {id contained u : Nat} {entry : TypeEntry} :
      64 < id → table.entries[id - 65]? = some (some entry) →
        contained ∈ entry.containedTypes → Reaches table contained u → Reaches table id u

/-- An integer, the pointer or an initialised entry of the array. -/
def TypeTable.Denotes (table : TypeTable) (id : Nat) : Prop :=
  id ≤ 64 ∨ id = 65 ∨ table.IsSet (id - 65)

/-- The type and its element types denote types, and no lookup leaves the array. -/
structure TypeTable.Safe (table : TypeTable) (id : Nat) : Prop where
  denotes : ∀ u, table.Reaches id u → table.Denotes u
  sizeInside : ∀ u, table.Reaches id u → typesize table u ≠ none
  alignInside : ∀ u, table.Reaches id u → typealign table u ≠ none
  componentsInside : ∀ depth u, table.Reaches id u →
    typeComponents table depth u ≠ .error .outside

/-- The identifiers of integers, of static types and of parsed types. -/
def TypeTable.Listed (table : TypeTable) (id : Nat) : Prop :=
  id ≤ 64 ∨ id - 65 < table.numTypes ∧ (id < bcStartTid ∨ id - 65 < table.numTypes - 1)

/-- Only listed identifiers are reached. -/
def TypeTable.Fits
    (table : TypeTable)
    (id : Nat) :
    Prop := ∀ u, table.Reaches id u → table.Listed u

variable {table : TypeTable} {numTypes next : Nat}

theorem TypeTable.Reaches.trans
    {via u : Nat}
    (reaches : table.Reaches id via)
    (further : table.Reaches via u) :
    table.Reaches id u := by
  induction reaches with
  | refl => exact further
  | step large isEntry contains _ ih =>
    exact .step large isEntry contains (ih further)

theorem TypeTable.Filled.entry?_ne_none_iff
    (filled : table.Filled numTypes next)
    (id : Nat) :
    table.entry? id ≠ none ↔ id - 65 < numTypes := by
  rw [TypeTable.entry?, Ne, Option.map_eq_none_iff, getElem?_eq_none_iff, filled.isLength, not_le]

/-- When a type has a size. -/
theorem TypeTable.Filled.typesize_ne_none_iff
    (filled : table.Filled numTypes next)
    (id : Nat) :
    typesize table id ≠ none ↔ id % 0x8000 ≤ 64 ∨ id % 0x8000 - 65 < numTypes := by
  rw [typesize]
  split
  · rename_i small
    simp [small]
  · rename_i large
    rw [Ne, Option.map_eq_none_iff, ← Ne, filled.entry?_ne_none_iff]
    exact (or_iff_right large).symm

theorem TypeTable.Filled.typealign_ne_none_iff
    (filled : table.Filled numTypes next)
    (id : Nat) :
    typealign table id ≠ none ↔ id % 0x8000 ≤ 64 ∨ id % 0x8000 - 65 < numTypes := by
  rw [typealign]
  split
  · rename_i small
    simp [small]
  · rename_i large
    rw [Ne, Option.map_eq_none_iff, ← Ne, filled.entry?_ne_none_iff]
    exact (or_iff_right large).symm

/-- Lookups one behind the other stay inside if each of them does. -/
theorem bind_ne_outside
    {α β : Type}
    {x : Except Lookup α}
    {f : α → Except Lookup β}
    (first : x ≠ .error .outside)
    (next : ∀ a, f a ≠ .error .outside) :
    x >>= f ≠ .error .outside := by
  cases x with
  | error why =>
    cases why with
    | outside => exact absurd rfl first
    | deeper => exact nofun
  | ok a => exact next a

theorem mapM_ne_outside
    {f : Nat → Except Lookup (Nat × Bool)}
    {parts : List Nat}
    (inside : ∀ part ∈ parts, f part ≠ .error .outside) :
    parts.mapM f ≠ .error .outside := by
  induction parts with
  | nil => exact nofun
  | cons part parts inductionHypothesis =>
    have others := inductionHypothesis fun other isOther => inside other (mem_cons_of_mem _ isOther)
    rw [mapM_cons]
    exact bind_ne_outside (inside part mem_cons_self) fun _ => bind_ne_outside others fun _ => nofun

theorem TypeTable.entry?_contains
    {part : Nat}
    (isEntry : table.entry? id = some entry)
    (isPart : part ∈ entry.containedTypes) :
    table.entries[id - 65]? = some (some entry) := by
  obtain ⟨found, isFound, isValue⟩ := Option.map_eq_some_iff.mp isEntry
  cases found with
  | none =>
    cases isValue
    cases isPart
  | some set =>
    cases isValue
    exact isFound

theorem TypeTable.Filled.array_contains
    (filled : table.Filled numTypes next)
    (isEntry : table.entry? id = some entry)
    (isArray : entry.kind = .arrayType) :
    entry.containedTypes ≠ [] := by
  obtain ⟨found, isFound, isValue⟩ := Option.map_eq_some_iff.mp isEntry
  cases found with
  | none =>
    cases isValue
    cases isArray
  | some set =>
    cases isValue
    exact filled.arraysContain _ _ isFound isArray

/-- `type_components` stays inside if all that it comes to is inside. -/
theorem TypeTable.Filled.typeComponents_inside
    (filled : table.Filled numTypes next)
    (depth : Nat)
    {id : Nat}
    (inside : ∀ u, table.Reaches id u → u ≤ 64 ∨ u - 65 < numTypes) :
    typeComponents table depth id ≠ .error .outside := by
  induction depth generalizing id with
  | zero => exact nofun
  | succ depth inductionHypothesis =>
    rw [typeComponents]
    split
    · exact nofun
    rename_i large
    obtain ⟨entry, isEntry⟩ := Option.ne_none_iff_exists'.mp
      ((filled.entry?_ne_none_iff id).mpr ((inside id (.refl id)).resolve_left large))
    have partInside (part : Nat) (isPart : part ∈ entry.containedTypes) :
        typeComponents table depth part ≠ .error .outside :=
      inductionHypothesis fun u reaches => inside u
        (.step (not_le.mp large) (table.entry?_contains isEntry isPart) isPart reaches)
    have isContaining := filled.array_contains isEntry
    rw [isEntry]
    dsimp only
    cases isKind : entry.kind with
    | functionType | pointerType => exact nofun
    | structType | packedStructType =>
      exact bind_ne_outside (mapM_ne_outside partInside) fun _ => nofun
    | arrayType =>
      cases isParts : entry.containedTypes with
      | nil => exact absurd isParts (isContaining isKind)
      | cons part parts =>
        exact bind_ne_outside (partInside part (isParts ▸ mem_cons_self)) fun _ => nofun

/-- The types that are listed are those that exist. -/
theorem TypeTable.Filled.listed_iff
    (filled : table.Filled numTypes (numTypes - 1))
    (id : Nat) :
    table.Listed id ↔ table.Denotes id ∧ (id ≤ 64 ∨ id - 65 < numTypes) := by
  rw [TypeTable.Listed, TypeTable.Denotes, filled.isSet, filled.isCount, bcStartTid, numStaticTypes]
  omega

/-- What `readTypeID` accepts is listed, or one of the five numbers behind the parsed types. -/
theorem listed_of_readTypeID
    {rest : List UInt8}
    (isCount : table.numTypes = numTypes)
    (isStart : table.startTid = bcStartTid)
    (accepts : readTypeID table text = .ok (id, rest)) :
    table.Listed id ∨ numTypes + 64 ≤ id ∧ id < numTypes + bcStartTid := by
  rw [readTypeID, bind_eq_ok_iff] at accepts
  obtain ⟨⟨t, text⟩, -, accepts⟩ := accepts
  dsimp only at accepts
  split_ifs at accepts with tooLarge
  cases accepts
  have below := Nat.mod_le t 65536
  have wraps := Nat.mod_le (table.numTypes + table.startTid) (2 ^ 32)
  rw [isCount, isStart] at tooLarge wraps
  rw [TypeTable.Listed, isCount]
  rw [bcStartTid] at *
  omega

/--
A type of an accepted types section is safe to look up exactly if all identifiers
that it reaches are listed; `readTypeID` lets five others through.
-/
theorem type_safe_iff_fits
    {outside : Outside}
    {numTypes : UInt32}
    {text : List UInt8}
    {table : TypeTable}
    (parses : parseTypes outside numTypes.toNat text = .ok table) :
    (∀ id, table.Safe id ↔ table.Fits id) ∧
      ∀ text id rest, readTypeID table text = .ok (id, rest) →
        table.Listed id ∨ numTypes.toNat + 64 ≤ id ∧ id < numTypes.toNat + bcStartTid := by
  have filled := parseTypes_filled parses
  refine ⟨fun id => ?_, fun text id rest accepts =>
    listed_of_readTypeID filled.isCount (parseTypes_startTid parses) accepts⟩
  constructor
  · intro safe u reaches
    rw [filled.listed_iff]
    refine ⟨safe.denotes u reaches, ?_⟩
    have looksUp := safe.componentsInside 1 u reaches
    rw [typeComponents] at looksUp
    split_ifs at looksUp with small
    · exact .inl small
    right
    rw [← filled.entry?_ne_none_iff]
    intro isNone
    rw [isNone] at looksUp
    exact looksUp rfl
  · intro fits
    have inside (u : Nat) (reaches : table.Reaches id u) :=
      ((filled.listed_iff u).mp (fits u reaches)).2
    refine ⟨fun u reaches => ((filled.listed_iff u).mp (fits u reaches)).1,
      fun u reaches => ?_, fun u reaches => ?_, fun depth u reaches => ?_⟩
    · have isInside := inside u reaches
      rw [filled.typesize_ne_none_iff]
      omega
    · have isInside := inside u reaches
      rw [filled.typealign_ne_none_iff]
      omega
    · exact filled.typeComponents_inside depth fun v further => inside v (reaches.trans further)

/-- Nothing but zeros outside the arrays. -/
def zeroOutside : Outside where
  typesize _ := 0
  typealign _ := 0
  typeComponents _ := (0, true)
  valueType _ _ _ := 0
  valueMap _ _ _ := 0
  globalMap _ _ _ := 0
  castSize _ _ := 0

/-- A section of six types, the parsed one an array of two static pointers. -/
def arraySection : List UInt8 := [0x54, 0x65, 0x64, 0x64, 0x61, 0x62, 0x62, 0x61, 0x64]

def arrayEntry : TypeEntry := ⟨.arrayType, [65], 2, 16, 8⟩

/-- The table of `arraySection`, whose last entry is not set. -/
def arrayTable : TypeTable where
  numTypes := 6
  startTid := 69
  entries := [some ⟨.pointerType, [8], 1, 8, 8⟩, some ⟨.pointerType, [16], 1, 8, 8⟩,
    some ⟨.pointerType, [32], 1, 8, 8⟩, some ⟨.pointerType, [64], 1, 8, 8⟩,
    some arrayEntry, none]

theorem arraySection_parses :
    parseTypes zeroOutside (6 : UInt32).toNat arraySection = .ok arrayTable := by
  rfl

theorem arrayTable_fits : arrayTable.Fits 69 := by
  have fromByte (u : Nat) (reaches : arrayTable.Reaches 8 u) : arrayTable.Listed u := by
    cases reaches with
    | refl => exact .inl (by decide)
    | step large => exact absurd large (by decide)
  have fromPointer (u : Nat) (reaches : arrayTable.Reaches 65 u) : arrayTable.Listed u := by
    cases reaches with
    | refl => exact .inr (by decide)
    | step _ isEntry isPart further =>
      cases isEntry
      cases mem_singleton.mp isPart
      exact fromByte u further
  intro u reaches
  cases reaches with
  | refl => exact .inr (by decide)
  | step _ isEntry isPart further =>
    cases isEntry
    cases mem_singleton.mp isPart
    exact fromPointer u further

theorem type_safe_iff_fits_array : arrayTable.Fits 69 ∧ arrayTable.Safe 69 :=
  ⟨arrayTable_fits, ((type_safe_iff_fits arraySection_parses).1 69).mpr arrayTable_fits⟩

/-- Identifier 74 is accepted for six types, and is looked up behind the array. -/
theorem type_lookup_outside :
    parseTypes zeroOutside (6 : UInt32).toNat arraySection = .ok arrayTable ∧
      readTypeID arrayTable [0x62, 0x6a, 0x64] = .ok (74, []) ∧
      ¬ arrayTable.Denotes 74 ∧ typesize arrayTable 74 = none ∧
      typealign arrayTable 74 = none ∧ typeComponents arrayTable 1 74 = .error .outside := by
  refine ⟨arraySection_parses, rfl, ?_, rfl, rfl, rfl⟩
  rintro (small | isPointer | ⟨entry, isSet⟩)
  · exact absurd small (by decide)
  · exact absurd isPointer (by decide)
  · cases isSet

end LibClamav.Bytecode
