import LibClamav.MapSource
import LibClamav.HashtabFind

namespace LibClamav.Hashtab

open List Function Option
open Option (map_some some_ne_none)

/-!
# Keys of a map

A map hashes all bytes of a key but stores and compares them as strings.  Calls
whose keys have no byte behind a NUL keep apart what they store, and every key
that was added is found with the value that was set last.
-/

variable {valuesize code number : Int} {htab : Hashtable Int} {value : List UInt8}

/-- A call of the map functions, with the outcomes of its allocations. -/
inductive MapCall where
  | addkey (key : List UInt8) (memory : MapMemory)
  | setvalue (value : List UInt8) (allocated : Bool)
  | find (key : List UInt8)

/-- A call that returns a code. -/
inductive MapStep : Map → MapCall → Int → Map → Prop where
  | addkey {m after : Map} {key : List UInt8} {memory : MapMemory} {fuel : Nat} {code : Int} :
      cliMapAddkey memory fuel m key = some (after, code) →
      MapStep m (.addkey key memory) code after
  | setvalue {m : Map} (value : List UInt8) (allocated : Bool) :
      MapStep m (.setvalue value allocated) (cliMapSetvalue allocated m value).2
        (cliMapSetvalue allocated m value).1
  | find {m : Map} (key : List UInt8) :
      MapStep m (.find key) (cliMapFind m key).2 (cliMapFind m key).1

/-- The calls on a map, each with the code it returned. -/
inductive MapRun (start : Map) : List (MapCall × Int) → Map → Prop where
  | nil : MapRun start [] start
  | snoc {calls : List (MapCall × Int)} {m after : Map} {call : MapCall} {code : Int} :
      MapRun start calls m → MapStep m call code after →
      MapRun start (calls ++ [(call, code)]) after

/-- What a map is for: the value of each key that was added, and the key that was added last. -/
structure MapView where
  value : List UInt8 → Option (Option (List UInt8))
  current : Option (List UInt8)

/-- The effect of a call that succeeds. -/
def MapView.call
    (valuesize : Int)
    (view : MapView)
    (called : MapCall × Int) :
    MapView :=
  if called.2 < 0 then
    view
  else
    match called.1 with
    | .addkey key _ =>
      { value := update view.value key
          (some ((view.value key).getD (freshValue valuesize).value))
        current := some key }
    | .setvalue value _ =>
      match view.current with
      | some key => { view with value := update view.value key (some (some value)) }
      | none => view
    | .find _ => view

theorem MapView.call_failed
    (view : MapView)
    (call : MapCall)
    (failed : code < 0) :
    view.call valuesize (call, code) = view :=
  if_pos failed

theorem MapView.call_addkey
    (view : MapView)
    (key : List UInt8)
    (memory : MapMemory)
    (succeeded : ¬ code < 0) :
    view.call valuesize (.addkey key memory, code) =
      { value := update view.value key
          (some ((view.value key).getD (freshValue valuesize).value))
        current := some key } :=
  if_neg succeeded

theorem MapView.call_setvalue
    {view : MapView}
    {key : List UInt8}
    (isCurrent : view.current = some key)
    (value : List UInt8)
    (allocated : Bool)
    (succeeded : ¬ code < 0) :
    view.call valuesize (.setvalue value allocated, code) =
      { view with value := update view.value key (some (some value)) } := by
  rw [MapView.call, if_neg succeeded]
  rw [isCurrent]

/-- The view after some calls on a new map. -/
def mapView (valuesize : Int) (calls : List (MapCall × Int)) : MapView :=
  calls.foldl (MapView.call valuesize) { value := fun _ => none, current := none }

/--
Calls that the functions below the map do not disturb: keys without a byte behind a NUL that
get an element on their own path, and values that can be copied.
-/
def MapCall.Safe (m : Map) : MapCall → Prop
  | .addkey key memory => Plain key ∧ Placeable memory.toMemory m.htab key
  | .setvalue value allocated => m.valuesize = 0 → allocated = true ∧ value ≠ []
  | .find key => Plain key

/-- The calls on a map, each one safe in the map before it, with the code it returned. -/
inductive SafeRun (start : Map) : List (MapCall × Int) → Map → Prop where
  | nil : SafeRun start [] start
  | snoc {calls : List (MapCall × Int)} {m after : Map} {call : MapCall} {code : Int} :
      SafeRun start calls m → call.Safe m → MapStep m call code after →
      SafeRun start (calls ++ [(call, code)]) after

/-- The value that an element of the table stands for. -/
def Map.valueAt (m : Map) (number : Int) : Option (Option (List UInt8)) :=
  (m.values[number.toNat]?).map MapValue.value

/-- A map and its view. -/
structure Shows (m : Map) (view : MapView) : Prop where
  keeps : Keeps m.htab
  valid : ∀ {key number}, Stored m.htab.htable key number → m.valid number = true
  apart : ∀ {key other number}, Stored m.htab.htable key number →
    Stored m.htab.htable other number → key = other
  stored : ∀ {key number}, Stored m.htab.htable key number → view.value key = m.valueAt number
  added : ∀ {key}, view.value key ≠ none → ∃ number, Stored m.htab.htable key number
  current : ∀ {key}, view.current = some key → Stored m.htab.htable key m.lastInsert
  fresh : view.current = none → m.lastInsert = -1

variable {m : Map} {view : MapView} {key : List UInt8}

theorem Map.valid_iff : m.valid number = true ↔ 0 ≤ number ∧ number < m.values.length := by
  rw [Map.valid, Bool.and_eq_true, decide_eq_true_iff, decide_eq_true_iff]

/-- The number that is found is stored. -/
theorem Shows.findData_iff
    (shows : Shows m view)
    (plainKey : Plain key)
    (number : Int) :
    m.findData key = some number ↔ Stored m.htab.htable key number :=
  shows.keeps.find_data_iff plainKey number

theorem Shows.view_none
    (shows : Shows m view)
    (plainKey : Plain key)
    (notFound : m.findData key = none) :
    view.value key = none := by
  by_contra isAdded
  obtain ⟨number, stored⟩ := shows.added isAdded
  rw [(shows.findData_iff plainKey number).mpr stored] at notFound
  exact nomatch notFound

/-- It leads to the value of the key. -/
theorem Shows.view_of_findData
    (shows : Shows m view)
    (plainKey : Plain key)
    (found : m.findData key = some number) :
    ∃ value, m.valueAt number = some value ∧ view.value key = some value := by
  have stored := (shows.findData_iff plainKey number).mp found
  have isValid := Map.valid_iff.mp (shows.valid stored)
  have inside : number.toNat < m.values.length := by omega
  refine ⟨(m.values[number.toNat]).value, ?_, ?_⟩
  · rw [Map.valueAt, getElem?_eq_getElem inside, map_some]
  · rw [shows.stored stored, Map.valueAt, getElem?_eq_getElem inside, map_some]

theorem Map.valueAt_append
    (isValid : m.valid number = true)
    (htab : Hashtable Int)
    (more : List MapValue)
    (lastInsert : Int) :
    { m with htab, values := m.values ++ more, lastInsert }.valueAt number = m.valueAt number := by
  have inside := Map.valid_iff.mp isValid
  have below : number.toNat < m.values.length := by omega
  rw [Map.valueAt, getElem?_append_left below]
  rfl

theorem Map.valid_append
    (isValid : m.valid number = true)
    (htab : Hashtable Int)
    (more : List MapValue)
    (lastInsert : Int) :
    { m with htab, values := m.values ++ more, lastInsert }.valid number = true := by
  have inside := Map.valid_iff.mp isValid
  rw [Map.valid_iff, length_append]
  omega

section

variable (shows : Shows m view) {after : Map}

include shows

/-- Adding a known key makes it the current one. -/
theorem Shows.addkey_found
    (found : Stored m.htab.htable key number) :
    Shows { m with lastInsert := number } { view with current := some key } :=
  { shows with current := fun isCurrent => some.inj isCurrent ▸ found, fresh := nofun }

/-- A key without memory is not added. -/
theorem Shows.addkey_noMemory
    (keeps : Keeps htab)
    (same : ∀ other number, Stored htab.htable other number ↔ Stored m.htab.htable other number)
    (more : List MapValue) :
    Shows { m with htab, values := m.values ++ more } view where
  keeps := keeps
  valid stored := Map.valid_append (shows.valid ((same _ _).mp stored)) htab more _
  apart first second := shows.apart ((same _ _).mp first) ((same _ _).mp second)
  stored stored := by
    have before := (same _ _).mp stored
    rw [shows.stored before]
    exact (Map.valueAt_append (shows.valid before) htab more _).symm
  added isAdded := by
    obtain ⟨number, stored⟩ := shows.added isAdded
    exact ⟨number, (same _ _).mpr stored⟩
  current isCurrent := (same _ _).mpr (shows.current isCurrent)
  fresh := shows.fresh

/-- A new key is shown with its entry. -/
theorem Shows.addkey_new
    (keeps : Keeps htab)
    (sets : Sets m.htab key (m.values.length : Int) htab)
    (entry : MapValue) :
    Shows { m with htab, values := m.values ++ [entry], lastInsert := m.values.length }
      { value := update view.value key (some entry.value), current := some key } := by
  have new : Stored htab.htable key (m.values.length : Int) := by rw [sets, if_pos rfl]
  have old {other : List UInt8} {number : Int} (differs : other ≠ key)
      (stored : Stored htab.htable other number) : Stored m.htab.htable other number := by
    rw [sets, if_neg differs] at stored
    exact stored
  have number_of_key {number : Int} (stored : Stored htab.htable key number) :
      number = m.values.length := by
    rw [sets, if_pos rfl] at stored
    exact stored
  have oldBelow {other : List UInt8} {number : Int} (differs : other ≠ key)
      (stored : Stored htab.htable other number) : number ≠ m.values.length := by
    have inside := Map.valid_iff.mp (shows.valid (old differs stored))
    omega
  refine ⟨keeps, ?_, ?_, ?_, ?_, ?_, ?_⟩
  · intro other number stored
    by_cases same : other = key
    · have isLast : number = m.values.length := number_of_key (same ▸ stored)
      rw [Map.valid_iff, isLast, length_append, length_singleton]
      omega
    · exact Map.valid_append (shows.valid (old same stored)) htab [entry] _
  · intro first second number storedFirst storedSecond
    by_cases sameFirst : first = key
    · by_cases sameSecond : second = key
      · rw [sameFirst, sameSecond]
      · exact absurd (number_of_key (sameFirst ▸ storedFirst)) (oldBelow sameSecond storedSecond)
    · by_cases sameSecond : second = key
      · exact absurd (number_of_key (sameSecond ▸ storedSecond)) (oldBelow sameFirst storedFirst)
      · exact shows.apart (old sameFirst storedFirst) (old sameSecond storedSecond)
  · intro other number stored
    by_cases same : other = key
    · have isLast : number = m.values.length := number_of_key (same ▸ stored)
      dsimp only
      rw [same, update_self, isLast, Map.valueAt, Int.toNat_natCast,
        getElem?_concat_length, map_some]
    have before := old same stored
    dsimp only
    rw [update_of_ne same, shows.stored before]
    exact (Map.valueAt_append (shows.valid before) htab [entry] _).symm
  · intro other isAdded
    by_cases same : other = key
    · exact ⟨_, same ▸ new⟩
    dsimp only at isAdded
    rw [update_of_ne same] at isAdded
    obtain ⟨number, stored⟩ := shows.added isAdded
    refine ⟨number, ?_⟩
    rw [sets, if_neg same]
    exact stored
  · exact fun isCurrent => some.inj isCurrent ▸ new
  · exact nofun

theorem Shows.modify
    (isCurrent : view.current = some key)
    {change : MapValue → MapValue}
    (changes : ∀ entry, (change entry).value = some value) :
    Shows (m.modify m.lastInsert change)
      { view with value := update view.value key (some (some value)) } := by
  have stored := shows.current isCurrent
  have inside := Map.valid_iff.mp (shows.valid stored)
  refine ⟨shows.keeps, ?_, shows.apart, ?_, ?_, shows.current, shows.fresh⟩
  · intro other number isStored
    rw [Map.valid_iff, Map.modify, length_modify]
    exact Map.valid_iff.mp (shows.valid isStored)
  · intro other number isStored
    have insideOther := Map.valid_iff.mp (shows.valid isStored)
    by_cases same : other = key
    · have sameNumber : number = m.lastInsert := shows.keeps.stored_unique (same ▸ isStored) stored
      have below : m.lastInsert.toNat < m.values.length := by omega
      simp [same, sameNumber, Map.valueAt, Map.modify, getElem?_eq_getElem below, changes]
    have differs : ¬ m.lastInsert.toNat = number.toNat := by
      intro sameIndex
      have sameNumber : m.lastInsert = number := by omega
      exact same (shows.apart isStored (sameNumber ▸ stored))
    have unchanged : (m.modify m.lastInsert change).valueAt number = m.valueAt number := by
      simp [Map.valueAt, Map.modify, differs]
    rw [unchanged]
    exact (update_of_ne same _ _).trans (shows.stored isStored)
  · intro other isAdded
    by_cases same : other = key
    · exact ⟨_, same ▸ stored⟩
    · dsimp only at isAdded
      rw [update_of_ne same] at isAdded
      exact shows.added isAdded

/-- `cli_map_addkey` adds the key to the view, or leaves the view as it is. -/
theorem Shows.addkey
    {memory : MapMemory}
    {fuel : Nat}
    (plainKey : Plain key)
    (placeable : Placeable memory.toMemory m.htab key)
    (returned : cliMapAddkey memory fuel m key = some (after, code)) :
    Shows after (view.call m.valuesize (.addkey key memory, code)) ∧
      after.keysize = m.keysize ∧ after.valuesize = m.valuesize := by
  rw [cliMapAddkey] at returned
  by_cases wrongSize : m.keysize ≠ key.length
  · rw [if_pos wrongSize] at returned
    cases returned
    exact ⟨shows, rfl, rfl⟩
  rw [if_neg wrongSize] at returned
  cases found : m.findData key with
  | some number =>
    rw [found] at returned
    cases returned
    obtain ⟨value, _, isValue⟩ := shows.view_of_findData plainKey found
    refine ⟨?_, rfl, rfl⟩
    have sameValue : update view.value key
        (some ((view.value key).getD (freshValue m.valuesize).value)) = view.value := by
      rw [isValue, getD_some, ← isValue]
      exact update_eq_self key view.value
    rw [MapView.call_addkey view key memory (Int.lt_irrefl 0), sameValue]
    exact shows.addkey_found ((shows.findData_iff plainKey number).mp found)
  | none =>
    rw [found] at returned
    split_ifs at returned with noValues
    · cases returned
      exact ⟨shows, rfl, rfl⟩
    cases inserted : cliHashtabInsert memory.toMemory fuel m.htab key (m.values.length : Int) with
    | none =>
      rw [inserted] at returned
      exact nomatch returned
    | some pair =>
      obtain ⟨htab, result⟩ := pair
      rw [inserted] at returned
      obtain ⟨keeps, ⟨isElement, sets⟩ | ⟨isNull, same⟩⟩ :=
        shows.keeps.of_insert plainKey placeable inserted
      · obtain ⟨idx, rfl⟩ := isSome_iff_exists.mp isElement
        cases returned
        refine ⟨?_, rfl, rfl⟩
        rw [MapView.call_addkey view key memory (by decide), shows.view_none plainKey found,
          getD_none]
        exact shows.addkey_new keeps sets (freshValue m.valuesize)
      · subst isNull
        cases returned
        exact ⟨shows.addkey_noMemory keeps same _, rfl, rfl⟩

theorem Shows.exists_current
    (isValid : m.valid m.lastInsert = true) :
    ∃ key, view.current = some key := by
  cases isCurrent : view.current with
  | some key => exact ⟨key, rfl⟩
  | none =>
    rw [shows.fresh isCurrent] at isValid
    exact absurd (Map.valid_iff.mp isValid).1 (by decide)

/-- A value is set for the current key. -/
theorem Shows.setvalue
    {allocated : Bool}
    (copied : m.valuesize = 0 → allocated = true ∧ value ≠ []) :
    Shows (cliMapSetvalue allocated m value).1
      (view.call m.valuesize (.setvalue value allocated, (cliMapSetvalue allocated m value).2)) ∧
      (cliMapSetvalue allocated m value).1.keysize = m.keysize ∧
      (cliMapSetvalue allocated m value).1.valuesize = m.valuesize := by
  rw [cliMapSetvalue]
  by_cases refused : m.valuesize ≠ 0 ∧ m.valuesize ≠ value.length ∨ m.valid m.lastInsert = false
  · rw [if_pos refused]
    exact ⟨shows, rfl, rfl⟩
  have isValid : m.valid m.lastInsert = true := by
    by_contra invalid
    exact refused (.inr (Bool.eq_false_iff.mpr invalid))
  obtain ⟨key, isCurrent⟩ := shows.exists_current isValid
  rw [if_neg refused]
  by_cases sized : m.valuesize ≠ 0
  · rw [if_pos sized]
    refine ⟨?_, rfl, rfl⟩
    rw [MapView.call_setvalue isCurrent value allocated (Int.lt_irrefl 0)]
    exact shows.modify isCurrent fun _ => rfl
  rw [if_neg sized, if_pos (copied (not_not.mp sized))]
  refine ⟨?_, rfl, rfl⟩
  rw [MapView.call_setvalue isCurrent value allocated (Int.lt_irrefl 0)]
  exact shows.modify isCurrent fun _ => rfl

/-- A search shows the same map. -/
theorem Shows.find
    (key : List UInt8) :
    Shows (cliMapFind m key).1 view ∧ (cliMapFind m key).1.keysize = m.keysize ∧
      (cliMapFind m key).1.valuesize = m.valuesize := by
  rw [cliMapFind]
  split_ifs with wrongSize
  · exact ⟨shows, rfl, rfl⟩
  cases m.findData key with
  | none => exact ⟨shows, rfl, rfl⟩
  | some number =>
    exact ⟨{ shows with }, rfl, rfl⟩

/-- A safe call does to the view what it says. -/
theorem Shows.step
    {call : MapCall}
    {code : Int}
    (step : MapStep m call code after)
    (safe : call.Safe m) :
    Shows after (view.call m.valuesize (call, code)) ∧
      after.keysize = m.keysize ∧ after.valuesize = m.valuesize := by
  cases step with
  | addkey returned => exact shows.addkey safe.1 safe.2 returned
  | setvalue value allocated => exact shows.setvalue safe
  | find key =>
    have unchanged : view.call m.valuesize (.find key, (cliMapFind m key).2) = view := by
      rw [MapView.call]
      split_ifs
      · rfl
      · rfl
    rw [unchanged]
    exact shows.find key

end

variable {start : Map} {calls : List (MapCall × Int)}

theorem mapView_snoc
    (valuesize : Int)
    (calls : List (MapCall × Int))
    (called : MapCall × Int) :
    mapView valuesize (calls ++ [called]) = (mapView valuesize calls).call valuesize called :=
  foldl_concat _ _ _ _

/-- A call that added the key. -/
def AddedIn (calls : List (MapCall × Int)) (key : List UInt8) : Prop :=
  ∃ memory code, (MapCall.addkey key memory, code) ∈ calls ∧ ¬ code < 0

theorem addedIn_snoc_iff
    {called : MapCall × Int} :
    AddedIn (calls ++ [called]) key ↔
      AddedIn calls key ∨ ∃ memory, called.1 = .addkey key memory ∧ ¬ called.2 < 0 := by
  constructor
  · rintro ⟨memory, code, isMember, succeeded⟩
    rcases mem_append.mp isMember with earlier | last
    · exact .inl ⟨memory, code, earlier, succeeded⟩
    · rw [← mem_singleton.mp last]
      exact .inr ⟨memory, rfl, succeeded⟩
  rintro (⟨memory, code, isMember, succeeded⟩ | ⟨memory, isAddkey, succeeded⟩)
  · exact ⟨memory, code, mem_append_left _ isMember, succeeded⟩
  · refine ⟨memory, called.2, mem_append_right _ ?_, succeeded⟩
    rw [← isAddkey]
    exact mem_singleton_self _

theorem MapView.call_added
    (valuesize : Int)
    (called : MapCall × Int)
    (current : ∀ key, view.current = some key → view.value key ≠ none) :
    (∀ key, (view.call valuesize called).value key ≠ none ↔
        view.value key ≠ none ∨ ∃ memory, called.1 = .addkey key memory ∧ ¬ called.2 < 0) ∧
      ∀ key, (view.call valuesize called).current = some key →
        (view.call valuesize called).value key ≠ none := by
  obtain ⟨call, code⟩ := called
  by_cases failed : code < 0
  · rw [MapView.call_failed _ call failed]
    exact ⟨fun key => by simp [failed], current⟩
  cases call with
  | addkey key memory =>
    rw [MapView.call_addkey _ key memory failed]
    refine ⟨fun other => ?_, fun other isCurrent => ?_⟩
    · by_cases same : other = key
      · simp [same, failed]
      · simp [same, Ne.symm same]
    · rw [← some.inj isCurrent]
      simp
  | setvalue value allocated =>
    cases isCurrent : view.current with
    | none => simp [MapView.call, failed, isCurrent]
    | some last =>
      rw [MapView.call_setvalue isCurrent value allocated failed]
      refine ⟨fun key => ?_, fun key isKey => ?_⟩
      · by_cases isLast : key = last
        · simp [isLast, current last isCurrent]
        · simp [isLast]
      · rw [some.inj (isKey.symm.trans isCurrent)]
        simp
  | find key => simpa [MapView.call, failed] using current

/-- The keys are those that were added. -/
theorem mapView_value_ne_none_iff
    (valuesize : Int)
    (calls : List (MapCall × Int)) :
    (∀ key, (mapView valuesize calls).value key ≠ none ↔ AddedIn calls key) ∧
      ∀ key, (mapView valuesize calls).current = some key →
        (mapView valuesize calls).value key ≠ none := by
  induction calls using reverseRecOn with
  | nil =>
    refine ⟨fun key => ⟨fun isAdded => absurd rfl isAdded, ?_⟩, nofun⟩
    exact fun ⟨_, _, isMember, _⟩ => nomatch isMember
  | append_singleton calls called ih =>
    obtain ⟨added, current⟩ := MapView.call_added valuesize called ih.2
    rw [mapView_snoc]
    refine ⟨fun key => ?_, current⟩
    rw [added, ih.1, addedIn_snoc_iff]

/-- The view of a new map, carried through the calls, is the view of the map they lead to. -/
theorem SafeRun.shows
    (run : SafeRun start calls m)
    (atStart : Shows start (mapView start.valuesize [])) :
    Shows m (mapView start.valuesize calls) ∧
      m.keysize = start.keysize ∧ m.valuesize = start.valuesize := by
  induction run with
  | nil => exact ⟨atStart, rfl, rfl⟩
  | snoc _ safe step inductionHypothesis =>
    obtain ⟨shows, keysize, valuesize⟩ := inductionHypothesis
    obtain ⟨showsAfter, sameKeysize, sameValuesize⟩ := shows.step step safe
    rw [valuesize] at showsAfter sameValuesize
    rw [mapView_snoc]
    exact ⟨showsAfter, sameKeysize.trans keysize, sameValuesize⟩

/-- A new map is empty. -/
theorem cliMapInit_spec
    {keysize capacity : Int}
    (created : cliMapInit keysize valuesize capacity = .ok start) :
    Shows start (mapView valuesize []) ∧ start.keysize = keysize ∧ start.valuesize = valuesize := by
  rw [cliMapInit] at created
  split_ifs at created
  cases created
  refine ⟨⟨⟨sized_nearestPower 16, placedIn_empty _, fun ⟨_, element⟩ => (nomatch element),
    nofun⟩, ?_, ?_, ?_, ?_, ?_, fun _ => rfl⟩, rfl, rfl⟩
  · exact fun ⟨_, element⟩ => nomatch element
  · exact fun ⟨_, element⟩ => nomatch element
  · exact fun ⟨_, element⟩ => nomatch element
  · exact fun isAdded => absurd rfl isAdded
  · exact nofun

/-- `cli_map_find` finds the keys and their values. -/
theorem Shows.find_iff
    (shows : Shows m view)
    (plainKey : Plain key)
    (rightSize : (key.length : Int) = m.keysize) :
    ((cliMapFind m key).2 = 1 ↔ view.value key ≠ none) ∧ ((cliMapFind m key).2 = 1 →
        some (cliMapGetvalue (cliMapFind m key).1) = view.value key ∧
          Stored m.htab.htable key (cliMapFind m key).1.lastFind) := by
  have sized : ¬ m.keysize ≠ key.length := not_not.mpr rightSize.symm
  rw [cliMapFind, if_neg sized]
  cases found : m.findData key with
  | none =>
    rw [shows.view_none plainKey found]
    exact ⟨⟨nofun, fun isAdded => absurd rfl isAdded⟩,
      nofun⟩
  | some number =>
    have stored := (shows.findData_iff plainKey number).mp found
    obtain ⟨value, atNumber, isValue⟩ := shows.view_of_findData plainKey found
    have isValid : m.valid number = true := shows.valid stored
    refine ⟨⟨fun _ => ?_, fun _ => rfl⟩, fun _ => ⟨?_, stored⟩⟩
    · rw [isValue]
      exact some_ne_none value
    have getvalue : cliMapGetvalue { m with lastFind := number } =
        (m.values[number.toNat]?).bind MapValue.value := if_pos isValid
    rw [isValue, getvalue]
    rw [Map.valueAt] at atNumber
    obtain ⟨entry, isEntry, rfl⟩ := map_eq_some_iff.mp atNumber
    rw [isEntry, bind_some]

/--
After any safe calls a key is found exactly if it was added, with the value that was set last;
different keys have different entries, and the next key can be added.
-/
theorem map_find_exact_of_plain_keys
    {keysize valuesize capacity : Int}
    (created : cliMapInit keysize valuesize capacity = .ok start)
    (run : SafeRun start calls m) :
    (∀ key, Plain key → (key.length : Int) = keysize →
      ((cliMapFind m key).2 = 1 ↔ AddedIn calls key) ∧ ((cliMapFind m key).2 = 1 →
          some (cliMapGetvalue (cliMapFind m key).1) = (mapView valuesize calls).value key)) ∧
      (∀ key other, Plain key → Plain other → (key.length : Int) = keysize →
        (other.length : Int) = keysize → (cliMapFind m key).2 = 1 → (cliMapFind m other).2 = 1 →
        key ≠ other → (cliMapFind m key).1.lastFind ≠ (cliMapFind m other).1.lastFind) ∧
      ∀ key (memory : MapMemory), Plain key → memory.table 1 = true → memory.table 2 = true →
        ∃ fuel result, cliMapAddkey memory fuel m key = some result := by
  obtain ⟨atStart, startKeysize, startValuesize⟩ := cliMapInit_spec created
  subst startValuesize
  obtain ⟨shows, sameKeysize, _⟩ := run.shows atStart
  rw [startKeysize] at sameKeysize
  have added := (mapView_value_ne_none_iff start.valuesize calls).1
  refine ⟨fun key plainKey rightSize => ?_, ?_, fun key memory plainKey granted again => ?_⟩
  · obtain ⟨succeeds, value⟩ := shows.find_iff plainKey (rightSize.trans sameKeysize.symm)
    exact ⟨succeeds.trans (added key), fun found => (value found).1⟩
  · intro key other plainKey plainOther rightSize otherSize found foundOther differ same
    have stored := ((shows.find_iff plainKey (rightSize.trans sameKeysize.symm)).2 found).2
    have storedOther := ((shows.find_iff plainOther (otherSize.trans sameKeysize.symm)).2
      foundOther).2
    rw [same] at stored
    exact differ (shows.apart stored storedOther)
  obtain ⟨fuel, after, result, returned⟩ : ∃ fuel after result,
      cliHashtabInsert memory.toMemory fuel m.htab key (m.values.length : Int) =
        some (after, result) :=
    shows.keeps.insert_returns granted again
  refine ⟨fuel, ?_⟩
  rw [cliMapAddkey, returned]
  split_ifs
  · exact ⟨_, rfl⟩
  · cases m.findData key with
    | some number | none => exact ⟨_, rfl⟩
  cases m.findData key with
  | some number => exact ⟨_, rfl⟩
  | none =>
    cases result with
    | none | some idx => exact ⟨_, rfl⟩

/-- All allocations of `cli_map_addkey` succeed. -/
def mapGrantAll : MapMemory := { grantAll with values := true }

/-- A map with keys of two bytes and values of one byte. -/
def pairMap : Map :=
  { htab := cliHashtabInit 16, values := [], keysize := 2, valuesize := 1, lastInsert := -1,
    lastFind := -1 }

/-- The map after its first key. -/
def addFirst (key : List UInt8) : Map :=
  { pairMap with
    htab := (cliHashtabInit 16).place (hash key 64) key 0
    values := [freshValue 1]
    lastInsert := 0 }

/-- The key `01 00` is found with the value that was set for it. -/
theorem map_find_exact_pairMap :
    (cliMapFind (cliMapSetvalue true (addFirst [1, 0]) [5]).1 [1, 0]).2 = 1 ∧
      cliMapGetvalue (cliMapFind (cliMapSetvalue true (addFirst [1, 0]) [5]).1 [1, 0]).1 =
        some [5] := by
  have created : cliMapInit 2 1 1 = .ok pairMap := rfl
  have added : cliMapAddkey mapGrantAll 1 pairMap [1, 0] = some (addFirst [1, 0], 1) := rfl
  have unused : pairMap.htab.Open 0 := .inl rfl
  have placeable : Placeable grantAll pairMap.htab [1, 0] :=
    fun noRoom => absurd unused (noRoom 0 (by decide)).1
  have safeFirst : (MapCall.addkey [1, 0] mapGrantAll).Safe pairMap := ⟨rfl, placeable⟩
  have run : SafeRun pairMap [(.addkey [1, 0] mapGrantAll, 1), (.setvalue [5] true, 0)]
      (cliMapSetvalue true (addFirst [1, 0]) [5]).1 :=
    .snoc (.snoc .nil safeFirst (.addkey added)) nofun (.setvalue [5] true)
  obtain ⟨succeeds, value⟩ := (map_find_exact_of_plain_keys created run).1 [1, 0] rfl rfl
  have found := succeeds.mpr ⟨mapGrantAll, 1, mem_cons_self, by decide⟩
  exact ⟨found, some.inj (value found)⟩

/-- The key `00 81` is found after the key `00 01` was added. -/
theorem map_finds_key_never_added : cliMapInit 2 1 1 = .ok pairMap ∧
      MapRun pairMap [(.addkey [0, 1] mapGrantAll, 1)] (addFirst [0, 1]) ∧
      ¬ AddedIn [(.addkey [0, 1] mapGrantAll, 1)] [0, 129] ∧
      (cliMapFind (addFirst [0, 1]) [0, 129]).2 = 1 := by
  have added : cliMapAddkey mapGrantAll 1 pairMap [0, 1] = some (addFirst [0, 1], 1) := rfl
  refine ⟨rfl, .snoc .nil (.addkey added), ?_, rfl⟩
  rintro ⟨memory, code, isMember, _⟩
  have sameCall := (Prod.mk.inj (mem_singleton.mp isMember)).1
  exact absurd (MapCall.addkey.inj sameCall).1 (by decide)

end LibClamav.Hashtab
