import LibClamav.HashsetSource
import LibClamav.HashtabProbe

namespace LibClamav.Hashtab

open Probing List

/-!
# Keys of a set

`cli_hashset_removekey` clears the bit of a slot, and so cuts the probe paths
that lead through it.  As long as no path of another stored key does, the set
holds exactly the keys that were added last.
-/

variable {capacity moves idx other : Nat} {stored : UInt32} {allocated : Bool} {after : Hashset}
  {code : Int}

/-- The slots that are tried for a key, in a set of a given capacity. -/
def setPath (capacity : Nat) (key : UInt32) : Nat → Nat :=
  probe capacity ((hash32shift key).toNat &&& (capacity - 1))

/-- A slot whose bit is clear. -/
def Hashset.Free (hs : Hashset) (idx : Nat) : Prop := hs.bitmap idx = false

/-- A slot that is in use for a key. -/
def Hashset.Holds (hs : Hashset) (idx : Nat) (key : UInt32) : Prop :=
  hs.bitmap idx = true ∧ hs.keys idx = key

/-- The slots that are in use. -/
def Hashset.inUse (hs : Hashset) : Finset Nat :=
  (Finset.range hs.capacity).filter (fun idx => hs.bitmap idx = true)

/-- The sizes of a set. -/
structure Hashset.Fits (hs : Hashset) : Prop where
  sized : Sized hs.capacity
  mask : hs.mask = hs.capacity - 1
  count : hs.inUse.card = hs.count
  count_le : hs.count ≤ hs.limit
  limit_lt : hs.limit < hs.capacity

/-- Every key stands where a search for it ends. -/
def Hashset.PlacedKeys (hs : Hashset) : Prop :=
  Placed (setPath hs.capacity) hs.capacity hs.Free hs.Holds

section

variable {hs : Hashset} {key : UInt32}

theorem Sized.setStart_lt
    (sized : Sized capacity)
    (key : UInt32) :
    (hash32shift key).toNat &&& (capacity - 1) < capacity := by
  rw [sized.mask_eq_mod]
  exact Nat.mod_lt _ (lt_of_lt_of_le (by decide) sized.le)

theorem Sized.setPath_lt
    (sized : Sized capacity)
    (key : UInt32)
    (moves : Nat) :
    setPath capacity key moves < capacity :=
  probe_lt (sized.setStart_lt key) moves

theorem searchLoop_pass
    (fits : hs.Fits)
    (notFree : ¬ hs.Free (setPath hs.capacity key moves))
    (differs : ¬ hs.Holds (setPath hs.capacity key moves) key)
    (left : Nat) :
    searchLoop hs key (left + 1) (setPath hs.capacity key moves) (moves + 1) =
      searchLoop hs key left (setPath hs.capacity key (moves + 1)) (moves + 1 + 1) := by
  have used := Bool.not_eq_false _ ▸ notFree
  rw [searchLoop, if_pos ⟨used, fun same => differs ⟨used, same⟩⟩, fits.mask,
    fits.sized.mask_eq_mod]
  rfl

/-- The search returns the place where its path stops. -/
theorem cliHashsetSearch_of_stopsAt
    (fits : hs.Fits)
    (inside : moves < hs.capacity)
    (stops : StopsAt (setPath hs.capacity) hs.Free hs.Holds key moves) :
    cliHashsetSearch hs key = some (setPath hs.capacity key moves) := by
  obtain ⟨left, rounds⟩ : ∃ left, hs.capacity = left + 1 + moves :=
    ⟨hs.capacity - 1 - moves, by omega⟩
  have advanced : cliHashsetSearch hs key =
        searchLoop hs key (left + 1) (setPath hs.capacity key moves) (moves + 1) := by
    rw [← loop_advance
      (fun left moves => searchLoop hs key left (setPath hs.capacity key moves) (moves + 1))
      (left + 1) moves fun left earlier isBefore => searchLoop_pass fits
        (stops.notFree earlier isBefore) (stops.notHeld earlier isBefore) left, ← rounds]
    rw [cliHashsetSearch, fits.mask]
    rfl
  have ended : ¬ (hs.bitmap (setPath hs.capacity key moves) = true ∧
      hs.keys (setPath hs.capacity key moves) ≠ key) := by
    rintro ⟨used, differs⟩
    rcases stops.here with isFree | held
    · exact absurd (used.symm.trans isFree) (by decide)
    · exact differs held.2
  rw [advanced, searchLoop, if_neg ended]

theorem Hashset.mem_inUse : idx ∈ hs.inUse ↔ idx < hs.capacity ∧ hs.bitmap idx = true := by
  rw [Hashset.inUse, Finset.mem_filter, Finset.mem_range]

/-- Every path stops, since a place is free. -/
theorem Hashset.Fits.exists_stopsAt
    (fits : hs.Fits)
    (key : UInt32) :
    ∃ moves < hs.capacity, StopsAt (setPath hs.capacity) hs.Free hs.Holds key moves := by
  have someFree : ∃ idx < hs.capacity, hs.Free idx := by
    by_contra noneFree
    have everything : Finset.range hs.capacity ⊆ hs.inUse := by
      intro idx isSlot
      have inside := Finset.mem_range.mp isSlot
      refine Hashset.mem_inUse.mpr ⟨inside, ?_⟩
      by_contra isFree
      exact noneFree ⟨idx, inside, Bool.eq_false_iff.mpr isFree⟩
    have large := Finset.card_le_card everything
    rw [Finset.card_range, fits.count] at large
    have few := fits.count_le
    have bound := fits.limit_lt
    omega
  obtain ⟨idx, inside, isFree⟩ := someFree
  obtain ⟨moves, movesInside, atIdx⟩ :=
    fits.sized.exists_probe_eq (fits.sized.setStart_lt key) inside
  obtain ⟨stop, notLater, stops⟩ :
      ∃ stop ≤ moves, StopsAt (setPath hs.capacity) hs.Free hs.Holds key stop :=
    Probing.exists_stopsAt (.inl (show hs.Free (setPath hs.capacity key moves) from
      (show setPath hs.capacity key moves = idx from atIdx) ▸ isFree))
  exact ⟨stop, lt_of_le_of_lt notLater movesInside, stops⟩

theorem cliHashsetContains_of_stopsAt
    (fits : hs.Fits)
    (inside : moves < hs.capacity)
    (stops : StopsAt (setPath hs.capacity) hs.Free hs.Holds key moves) :
    cliHashsetContains hs key = some (hs.bitmap (setPath hs.capacity key moves)) := by
  rw [cliHashsetContains, cliHashsetSearch_of_stopsAt fits inside stops]

/-- `cli_hashset_contains` answers for the keys that are held. -/
theorem Hashset.PlacedKeys.contains_iff
    (placed : hs.PlacedKeys)
    (fits : hs.Fits)
    (key : UInt32) :
    ∃ found, cliHashsetContains hs key = some found ∧ (found = true ↔ ∃ idx, hs.Holds idx key) := by
  by_cases held : ∃ idx, hs.Holds idx key
  · obtain ⟨idx, holds⟩ := held
    obtain ⟨moves, inside, atIdx, stops⟩ := placed.stopsAt_of_holds holds
    refine ⟨true, ?_, fun _ => ⟨idx, holds⟩, fun _ => rfl⟩
    rw [cliHashsetContains_of_stopsAt fits inside stops, atIdx, holds.1]
  obtain ⟨moves, inside, stops⟩ := fits.exists_stopsAt key
  have isFree := stops.here.resolve_right fun holds => held ⟨_, holds⟩
  refine ⟨false, ?_, nofun, fun some => absurd some held⟩
  rw [cliHashsetContains_of_stopsAt fits inside stops, isFree]

end

section

variable {hs : Hashset} {key : UInt32}

/-- A key is in some slot. -/
def Hashset.Has (hs : Hashset) (key : UInt32) : Prop := ∃ idx, hs.Holds idx key

/-- The set with a key in a slot. -/
def Hashset.occupy (hs : Hashset) (idx : Nat) (key : UInt32) : Hashset :=
  { hs with
    bitmap := Function.update hs.bitmap idx true
    keys := Function.update hs.keys idx key
    count := hs.count + 1 }

theorem Hashset.occupy_free_iff : (hs.occupy idx key).Free other ↔ hs.Free other ∧ other ≠ idx := by
  rw [Hashset.Free, Hashset.occupy]
  by_cases same : other = idx
  · simp [same]
  · simp [same, Hashset.Free]

theorem Hashset.occupy_holds_iff
    (isFree : hs.Free idx) :
    (hs.occupy idx key).Holds other stored ↔
      hs.Holds other stored ∨ other = idx ∧ stored = key := by
  rw [Hashset.Free] at isFree
  rw [Hashset.Holds, Hashset.Holds, Hashset.occupy]
  by_cases same : other = idx
  · simp [same, isFree, eq_comm]
  · simp [same]

/-- A new key is counted. -/
theorem Hashset.Fits.occupy
    (fits : hs.Fits)
    (room : hs.count + 1 ≤ hs.limit)
    (inside : idx < hs.capacity)
    (isFree : hs.Free idx) :
    (hs.occupy idx key).Fits := by
  refine ⟨fits.sized, fits.mask, ?_, room, fits.limit_lt⟩
  have grows : (hs.occupy idx key).inUse = insert idx hs.inUse := by
    ext other
    rw [Finset.mem_insert, Hashset.mem_inUse, Hashset.mem_inUse, Hashset.occupy]
    by_cases same : other = idx
    · simp [same, inside]
    · simp [same]
  rw [grows, Finset.card_insert_of_notMem, fits.count]
  · rfl
  · intro isUsed
    exact absurd ((Hashset.mem_inUse.mp isUsed).2.symm.trans isFree) (by decide)

/-- A key where its path stops is placed. -/
theorem Hashset.PlacedKeys.occupy
    (placed : hs.PlacedKeys)
    (inside : moves < hs.capacity)
    (stops : StopsAt (setPath hs.capacity) hs.Free hs.Holds key moves)
    (isFree : hs.Free (setPath hs.capacity key moves)) :
    (hs.occupy (setPath hs.capacity key moves) key).PlacedKeys :=
  (Placed.congr (fun _ => Hashset.occupy_free_iff)
    fun _ _ => Hashset.occupy_holds_iff isFree).mpr (placed.store inside stops isFree)

/-- What adding a key does to a set. -/
structure Adds (hs : Hashset) (key : UInt32) (added : Hashset) : Prop where
  fits : added.Fits
  placed : added.PlacedKeys
  capacity : added.capacity = hs.capacity
  limit : added.limit = hs.limit
  count_le : added.count ≤ hs.count + 1
  has_iff : ∀ other, added.Has other ↔ hs.Has other ∨ other = key

/-- A key is added once. -/
theorem cliHashsetAddkeyInternal_spec
    (fits : hs.Fits)
    (room : hs.count + 1 ≤ hs.limit)
    (key : UInt32) :
    ∃ added, cliHashsetAddkeyInternal hs key = some added ∧ added.Fits ∧
      (hs.PlacedKeys → Adds hs key added) := by
  obtain ⟨moves, inside, stops⟩ := fits.exists_stopsAt key
  rw [cliHashsetAddkeyInternal, cliHashsetSearch_of_stopsAt fits inside stops]
  dsimp only
  cases used : hs.bitmap (setPath hs.capacity key moves) with
  | true =>
    have held := stops.here.resolve_left fun isFree => absurd (used.symm.trans isFree) (by decide)
    refine ⟨hs, if_pos rfl, fits, fun placed =>
      ⟨fits, placed, rfl, rfl, Nat.le_succ _, fun other => ?_⟩⟩
    exact ⟨.inl, fun either => either.elim id fun same => same ▸ ⟨_, held⟩⟩
  | false =>
    have fitsAdded : (hs.occupy (setPath hs.capacity key moves) key).Fits :=
      fits.occupy room (fits.sized.setPath_lt key moves) used
    refine ⟨_, if_neg Bool.false_ne_true, fitsAdded, fun placed =>
      ⟨fitsAdded, placed.occupy inside stops used, rfl, rfl, le_rfl, fun other => ?_⟩⟩
    constructor
    · rintro ⟨idx, held⟩
      rcases (Hashset.occupy_holds_iff used).mp held with before | ⟨_, same⟩
      · exact .inl ⟨idx, before⟩
      · exact .inr same
    · rintro (⟨idx, held⟩ | rfl)
      · exact ⟨idx, (Hashset.occupy_holds_iff used).mpr (.inl held)⟩
      · exact ⟨_, (Hashset.occupy_holds_iff used).mpr (.inr ⟨rfl, rfl⟩)⟩

/-- A new set is empty. -/
theorem cliHashsetInit_spec
    (initialCapacity loadFactor : Nat) :
    (cliHashsetInit initialCapacity loadFactor).Fits ∧
      (cliHashsetInit initialCapacity loadFactor).PlacedKeys ∧
      (∀ key, ¬ (cliHashsetInit initialCapacity loadFactor).Has key) ∧
      nearestPower initialCapacity ≤ 2 * (cliHashsetInit initialCapacity loadFactor).limit := by
  have positive := (sized_nearestPower initialCapacity).le
  have empty : (cliHashsetInit initialCapacity loadFactor).inUse = ∅ :=
    Finset.filter_false_of_mem nofun
  obtain ⟨factor, low, high, isFactor⟩ : ∃ factor, 50 ≤ factor ∧ factor ≤ 99 ∧
      (cliHashsetInit initialCapacity loadFactor).limit =
        nearestPower initialCapacity * factor / 100 := by
    by_cases refused : loadFactor < 50 ∨ loadFactor > 99
    · refine ⟨80, by decide, by decide, ?_⟩
      rw [cliHashsetInit, if_pos refused]
    · refine ⟨loadFactor, by omega, by omega, ?_⟩
      rw [cliHashsetInit, if_neg refused]
  have below : nearestPower initialCapacity * factor / 100 < nearestPower initialCapacity := by
    rw [Nat.div_lt_iff_lt_mul (by decide)]
    exact Nat.mul_lt_mul_of_pos_left (by omega) (by omega)
  refine ⟨⟨sized_nearestPower initialCapacity, rfl, congrArg Finset.card empty,
    Nat.zero_le _, isFactor ▸ below⟩, ?_, fun _ ⟨_, held⟩ => (nomatch held.1), ?_⟩
  · exact ⟨fun held => (nomatch held.1), fun held => (nomatch held.1),
      fun held => (nomatch held.1), fun held => (nomatch held.1)⟩
  rw [isFactor]
  have half : nearestPower initialCapacity * 50 ≤ nearestPower initialCapacity * factor :=
    Nat.mul_le_mul_left _ low
  obtain ⟨more, power⟩ := sized_nearestPower initialCapacity
  have even : nearestPower initialCapacity = 2 * 2 ^ (5 + more) := by
    rw [power, ← pow_succ']
    congr 1
    omega
  omega

theorem Hashset.Fits.length_filter
    (fits : hs.Fits) :
    ((range hs.capacity).filter hs.bitmap).length = hs.count := by
  rw [← toFinset_card_of_nodup (nodup_range.filter _), ← fits.count]
  refine congrArg Finset.card (Finset.ext fun idx => ?_)
  rw [mem_toFinset, mem_filter, mem_range, Hashset.mem_inUse]

/-- The loop of `cli_hashset_grow` over the old slots. -/
theorem hashset_rehash_spec
    (old : Hashset)
    (indices : List Nat) :
    ∀ start : Hashset, start.Fits → start.PlacedKeys → start.count + indices.length ≤ start.limit →
      ∃ filled, indices.foldlM (fun grown i =>
            if old.bitmap i then cliHashsetAddkeyInternal grown (old.keys i) else some grown)
          start = some filled ∧
        filled.Fits ∧ filled.PlacedKeys ∧
        filled.count ≤ start.count + (indices.filter old.bitmap).length ∧
        filled.limit = start.limit ∧
        ∀ key, filled.Has key ↔ start.Has key ∨ ∃ i ∈ indices, old.Holds i key := by
  induction indices with
  | nil =>
    intro start fits placed _
    exact ⟨start, rfl, fits, placed, le_rfl, rfl, by simp⟩
  | cons i rest ih =>
    intro start fits placed enough
    rw [length_cons] at enough
    cases used : old.bitmap i with
    | false =>
      obtain ⟨filled, folded, fitsFilled, placedFilled, count, limit, has⟩ :=
        ih start fits placed (by omega)
      refine ⟨filled, ?_, fitsFilled, placedFilled, ?_, limit, fun key => ?_⟩
      · simpa [used] using folded
      · simpa [used] using count
      · simp [has, Hashset.Holds, used]
    | true =>
      obtain ⟨added, isAdded, _, adds⟩ :=
        cliHashsetAddkeyInternal_spec fits (by omega) (old.keys i)
      have adds := adds placed
      have few := adds.count_le
      obtain ⟨filled, folded, fitsFilled, placedFilled, count, limit, has⟩ :=
        ih added adds.fits adds.placed (by rw [adds.limit]; omega)
      refine ⟨filled, ?_, fitsFilled, placedFilled, ?_, limit.trans adds.limit, fun key => ?_⟩
      · simpa [used, isAdded] using folded
      · rw [filter_cons, if_pos used, length_cons]
        omega
      · rw [has, adds.has_iff, or_assoc, exists_mem_cons_iff]
        refine or_congr_right (or_congr_left ?_)
        exact ⟨fun same => ⟨used, same.symm⟩, fun held => held.2.symm⟩

/-- A grown set has the same keys and room for one more. -/
theorem cliHashsetGrow_spec
    (fits : hs.Fits) :
    ∃ grown, cliHashsetGrow true hs = some grown ∧ grown.Fits ∧ grown.PlacedKeys ∧
      grown.count + 1 ≤ grown.limit ∧ (hs.PlacedKeys → ∀ key, grown.Has key ↔ hs.Has key) := by
  obtain ⟨fitsNew, placedNew, emptyNew, half⟩ :=
    cliHashsetInit_spec (hs.capacity * 2) (hs.limit * 100 / hs.capacity)
  have large := le_nearestPower (hs.capacity * 2)
  have enough : (cliHashsetInit (hs.capacity * 2) (hs.limit * 100 / hs.capacity)).count +
      (range hs.capacity).length ≤
        (cliHashsetInit (hs.capacity * 2) (hs.limit * 100 / hs.capacity)).limit := by
    rw [length_range, show (cliHashsetInit _ _).count = 0 from rfl]
    omega
  obtain ⟨grown, folded, fitsGrown, placedGrown, count, limit, has⟩ :=
    hashset_rehash_spec hs (range hs.capacity) _ fitsNew placedNew enough
  refine ⟨grown, folded, fitsGrown, placedGrown, ?_, fun placed key => ?_⟩
  · rw [fits.length_filter, show (cliHashsetInit _ _).count = 0 from rfl] at count
    have few := fits.count_le
    have bound := fits.limit_lt
    omega
  rw [has, or_iff_right (emptyNew key)]
  constructor
  · exact fun ⟨idx, _, held⟩ => ⟨idx, held⟩
  · rintro ⟨idx, held⟩
    obtain ⟨moves, _, rfl, _⟩ := placed.spot held
    exact ⟨_, mem_range.mpr (fits.sized.setPath_lt key moves), held⟩

/-- What `cli_hashset_addkey` does when it returns. -/
theorem cliHashsetAddkey_spec
    (fits : hs.Fits)
    (granted : hs.count + 1 > hs.limit → allocated = true)
    (key : UInt32) :
    ∃ added, cliHashsetAddkey allocated hs key = some (added, 0) ∧ added.Fits ∧ (hs.PlacedKeys →
      added.PlacedKeys ∧ ∀ other, added.Has other ↔ hs.Has other ∨ other = key) := by
  obtain ⟨first, isFirst, fitsFirst, room, same⟩ : ∃ first,
      (if hs.count + 1 > hs.limit then cliHashsetGrow allocated hs else some hs) = some first ∧
        first.Fits ∧ first.count + 1 ≤ first.limit ∧
        (hs.PlacedKeys → first.PlacedKeys ∧ ∀ key, first.Has key ↔ hs.Has key) := by
    split_ifs with full
    · obtain ⟨grown, isGrown, fitsGrown, placedGrown, room, has⟩ := cliHashsetGrow_spec fits
      rw [granted full]
      exact ⟨grown, isGrown, fitsGrown, room, fun placed => ⟨placedGrown, has placed⟩⟩
    · exact ⟨hs, rfl, fits, not_lt.mp full, fun placed => ⟨placed, fun _ => Iff.rfl⟩⟩
  obtain ⟨added, isAdded, fitsAdded, adds⟩ := cliHashsetAddkeyInternal_spec fitsFirst room key
  refine ⟨added, ?_, fitsAdded, fun placed => ?_⟩
  · rw [cliHashsetAddkey, isFirst]
    dsimp only
    rw [isAdded]
  · obtain ⟨placedFirst, sameHas⟩ := same placed
    refine ⟨(adds placedFirst).placed, fun other => ?_⟩
    rw [(adds placedFirst).has_iff, sameHas]

end

section

variable {hs : Hashset} {key : UInt32}

/-- The set with a slot given back. -/
def Hashset.vacate (hs : Hashset) (idx : Nat) : Hashset :=
  { hs with
    bitmap := Function.update hs.bitmap idx false
    keys := Function.update hs.keys idx 0
    count := hs.count - 1 }

theorem Hashset.vacate_free_iff : (hs.vacate idx).Free other ↔ hs.Free other ∨ other = idx := by
  rw [Hashset.Free, Hashset.vacate]
  by_cases same : other = idx
  · simp [same]
  · simp [same, Hashset.Free]

theorem Hashset.vacate_holds_iff :
    (hs.vacate idx).Holds other stored ↔ hs.Holds other stored ∧ other ≠ idx := by
  rw [Hashset.Holds, Hashset.Holds, Hashset.vacate]
  by_cases same : other = idx
  · simp [same]
  · simp [same]

/-- A removed key is no longer counted. -/
theorem Hashset.Fits.vacate
    (fits : hs.Fits)
    (inside : idx < hs.capacity)
    (used : hs.bitmap idx = true) :
    (hs.vacate idx).Fits := by
  refine ⟨fits.sized, fits.mask, ?_, (Nat.sub_le _ _).trans fits.count_le, fits.limit_lt⟩
  have shrinks : (hs.vacate idx).inUse = hs.inUse.erase idx := by
    ext other
    rw [Finset.mem_erase, Hashset.mem_inUse, Hashset.mem_inUse, Hashset.vacate]
    by_cases same : other = idx
    · simp [same]
    · simp [same]
  rw [shrinks, Finset.card_erase_of_mem (Hashset.mem_inUse.mpr ⟨inside, used⟩), fits.count]
  rfl

/-- A path meets every place once. -/
theorem Sized.setPath_injective
    (sized : Sized capacity)
    {first second : Nat}
    (firstInside : first < capacity)
    (secondInside : second < capacity)
    (meets : setPath capacity key first = setPath capacity key second) :
    first = second :=
  sized.probe_injective (sized.setStart_lt key) firstInside secondInside meets

/-- The path of every other key reaches its slot without passing through this one. -/
def Hashset.PathsAvoid (hs : Hashset) (idx : Nat) : Prop :=
  ∀ slot other, hs.Holds slot other → slot ≠ idx →
    ∃ moves < hs.capacity, setPath hs.capacity other moves = slot ∧
      ∀ earlier < moves, setPath hs.capacity other earlier ≠ idx

/-- A removal keeps the others if no path passes its place. -/
theorem Hashset.PlacedKeys.vacate_iff
    (placed : hs.PlacedKeys)
    (fits : hs.Fits)
    (idx : Nat) :
    (hs.vacate idx).PlacedKeys ↔ hs.PathsAvoid idx := by
  have released := (Placed.congr (fun _ => Hashset.vacate_free_iff)
    fun _ _ => Hashset.vacate_holds_iff).trans (placed.release_iff idx)
  refine Iff.trans released ⟨fun avoided slot other held differs => ?_,
    fun avoided slot other held differs => ?_⟩
  · obtain ⟨moves, inside, atSlot, before⟩ := avoided slot other held differs
    exact ⟨moves, inside, atSlot, fun earlier isBefore => (before earlier isBefore).2⟩
  obtain ⟨moves, inside, atSlot, before⟩ := avoided slot other held differs
  obtain ⟨spot, spotInside, spotAtSlot, notFree⟩ := placed.spot held
  have same : spot = moves :=
    fits.sized.setPath_injective spotInside inside (spotAtSlot.trans atSlot.symm)
  exact ⟨moves, inside, atSlot, fun earlier isBefore =>
    ⟨notFree earlier (same ▸ isBefore), before earlier isBefore⟩⟩

/-- If it keeps them, the set has all keys but the removed one. -/
theorem Hashset.PlacedKeys.contains_vacate
    (placed : hs.PlacedKeys)
    (fits : hs.Fits)
    (held : hs.Holds idx key)
    (found : ∀ other ≠ key, hs.Has other → cliHashsetContains (hs.vacate idx) other = some true) :
    hs.PathsAvoid idx := by
  intro slot other holds differs
  have isOther : other ≠ key := by
    rintro rfl
    exact differs (placed.once holds held)
  obtain ⟨spot, _, atIdx, _⟩ := placed.spot held
  have fitsAfter : (hs.vacate idx).Fits :=
    fits.vacate (atIdx ▸ fits.sized.setPath_lt key spot) held.1
  obtain ⟨moves, inside, stops⟩ := fitsAfter.exists_stopsAt other
  have contains := cliHashsetContains_of_stopsAt fitsAfter inside stops
  rw [found other isOther ⟨slot, holds⟩] at contains
  have stillHeld := stops.here.resolve_left fun isFree =>
      absurd ((Option.some.inj contains).trans isFree) (by decide)
  have atSlot := placed.once (Hashset.vacate_holds_iff.mp stillHeld).1 holds
  refine ⟨moves, inside, atSlot, fun earlier isBefore same => ?_⟩
  exact stops.notFree earlier isBefore (Hashset.vacate_free_iff.mpr (.inr same))

/-- What `cli_hashset_removekey` does. -/
theorem cliHashsetRemovekey_spec
    (fits : hs.Fits)
    (key : UInt32) :
    (∃ idx, hs.Holds idx key ∧ (hs.vacate idx).Fits ∧
        cliHashsetRemovekey hs key = some (hs.vacate idx, 0)) ∨
      ((hs.PlacedKeys → ¬ hs.Has key) ∧ cliHashsetRemovekey hs key = some (hs, -1)) := by
  obtain ⟨moves, inside, stops⟩ := fits.exists_stopsAt key
  rw [cliHashsetRemovekey, cliHashsetSearch_of_stopsAt fits inside stops]
  rcases stops.here with isFree | held
  · refine .inr ⟨fun placed has => ?_, if_neg (Bool.eq_false_iff.mp isFree)⟩
    obtain ⟨found, contains, isFound⟩ := placed.contains_iff fits key
    rw [cliHashsetContains_of_stopsAt fits inside stops, isFree, isFound.mpr has] at contains
    cases contains
  · exact .inl ⟨_, held, fits.vacate (fits.sized.setPath_lt key moves) held.1, if_pos held.1⟩

end

/-- A call on a set, with the outcome of the allocations of a growth. -/
inductive SetCall where
  | add (key : UInt32) (allocated : Bool)
  | remove (key : UInt32)

/-- A call that returns a code. -/
inductive SetStep : Hashset → SetCall → Int → Hashset → Prop where
  | add {hs after : Hashset} {key : UInt32} {allocated : Bool} {code : Int} :
      cliHashsetAddkey allocated hs key = some (after, code) →
      SetStep hs (.add key allocated) code after
  | remove {hs after : Hashset} {key : UInt32} {code : Int} :
      cliHashsetRemovekey hs key = some (after, code) →
      SetStep hs (.remove key) code after

/-- Calls on a new set, each with the code it returned, and a condition on every step. -/
inductive SetRun (allowed : Hashset → SetCall → Prop)
    (start : Hashset) : List (SetCall × Int) → Hashset → Prop where
  | nil : SetRun allowed start [] start
  | snoc {calls : List (SetCall × Int)} {hs after : Hashset} {call : SetCall} {code : Int} :
      SetRun allowed start calls hs → allowed hs call → SetStep hs call code after →
      SetRun allowed start (calls ++ [(call, code)]) after

/-- The slot that a removal gives back is on no path of another stored key. -/
def SafeRemoval (hs : Hashset) : SetCall → Prop
  | .add _ _ => True
  | .remove key => ∀ idx, hs.Holds idx key → hs.PathsAvoid idx

/-- The effect of one call on the membership of a key. -/
def memberAfter (key : UInt32) (was : Bool) : SetCall × Int → Bool
  | (.add added _, code) => if added = key ∧ code = 0 then true else was
  | (.remove removed, code) => if removed = key ∧ code = 0 then false else was

/-- The last call on the key that took effect was an add. -/
def lastWasAdd (calls : List (SetCall × Int)) (key : UInt32) : Bool :=
  calls.foldl (memberAfter key) false

variable {start hs : Hashset} {calls : List (SetCall × Int)}

theorem lastWasAdd_snoc
    (calls : List (SetCall × Int))
    (called : SetCall × Int)
    (key : UInt32) :
    lastWasAdd (calls ++ [called]) key = memberAfter key (lastWasAdd calls key) called :=
  foldl_concat _ _ _ _

/-- The code that `cli_hashset_addkey` returns for an allowed growth. -/
theorem cliHashsetAddkey_granted
    {key : UInt32}
    (returned : cliHashsetAddkey allocated hs key = some (after, code)) :
    hs.count + 1 > hs.limit → allocated = true := by
  intro full
  cases allocated with
  | true => rfl
  | false =>
    rw [cliHashsetAddkey, if_pos full] at returned
    exact nomatch returned

/-- Runs with safe removals keep the keys that were added last. -/
theorem SetRun.keeps
    (run : SetRun SafeRemoval start calls hs)
    (fitsStart : start.Fits)
    (placedStart : start.PlacedKeys)
    (empty : ∀ key, ¬ start.Has key) :
    hs.Fits ∧ hs.PlacedKeys ∧ ∀ key, hs.Has key ↔ lastWasAdd calls key = true := by
  induction run with
  | nil => exact ⟨fitsStart, placedStart, fun key => by simp [empty key, lastWasAdd]⟩
  | @snoc calls hs after call code _ safe step ih =>
    obtain ⟨fits, placed, has⟩ := ih
    cases step with
    | @add _ key allocated _ returned =>
      obtain ⟨added, isAdded, fitsAfter, adds⟩ :=
        cliHashsetAddkey_spec fits (cliHashsetAddkey_granted returned) key
      obtain ⟨placedAfter, hasAfter⟩ := adds placed
      rw [isAdded] at returned
      cases returned
      refine ⟨fitsAfter, placedAfter, fun other => ?_⟩
      rw [hasAfter, has, lastWasAdd_snoc, memberAfter]
      by_cases same : key = other
      · simp [same]
      · simp [same, Ne.symm same]
    | @remove _ key _ returned =>
      rcases cliHashsetRemovekey_spec fits key with
        ⟨idx, held, fitsAfter, isRemoved⟩ | ⟨_, isRemoved⟩
      · rw [isRemoved] at returned
        cases returned
        refine ⟨fitsAfter, (placed.vacate_iff fits idx).mpr (safe idx held), fun other => ?_⟩
        rw [lastWasAdd_snoc, memberAfter]
        by_cases same : key = other
        · subst same
          simp only [and_self, if_true, Bool.false_eq_true, iff_false]
          rintro ⟨slot, still⟩
          obtain ⟨before, differs⟩ := Hashset.vacate_holds_iff.mp still
          exact differs (placed.once before held)
        rw [if_neg fun both => same both.1, ← has]
        constructor
        · exact fun ⟨slot, still⟩ => ⟨slot, (Hashset.vacate_holds_iff.mp still).1⟩
        rintro ⟨slot, before⟩
        refine ⟨slot, Hashset.vacate_holds_iff.mpr ⟨before, ?_⟩⟩
        rintro rfl
        exact same (placed.single held before)
      · rw [isRemoved] at returned
        cases returned
        refine ⟨fits, placed, fun other => ?_⟩
        rw [lastWasAdd_snoc, memberAfter, if_neg fun both => (nomatch both.2), has]

/-- Every call keeps the counts. -/
theorem SetStep.fits
    {call : SetCall}
    (step : SetStep hs call code after)
    (fits : hs.Fits) :
    after.Fits := by
  cases step with
  | @add _ key allocated _ returned =>
    obtain ⟨added, isAdded, fitsAdded, _⟩ :=
      cliHashsetAddkey_spec fits (cliHashsetAddkey_granted returned) key
    rw [isAdded] at returned
    cases returned
    exact fitsAdded
  | @remove _ key _ returned =>
    rcases cliHashsetRemovekey_spec fits key with ⟨_, _, fitsAfter, isRemoved⟩ | ⟨_, isRemoved⟩
    · rw [isRemoved] at returned
      cases returned
      exact fitsAfter
    · rw [isRemoved] at returned
      cases returned
      exact fits

theorem SetRun.fits
    {allowed : Hashset → SetCall → Prop}
    (run : SetRun allowed start calls hs)
    (fitsStart : start.Fits) :
    hs.Fits := by
  induction run with
  | nil => exact fitsStart
  | snoc _ _ step ih => exact step.fits ih

/-- The loop copies the keys in use. -/
theorem toarrayLoop_eq
    (indices : List Nat)
    (j)
    (enough : j + (indices.filter hs.bitmap).length ≤ hs.count) :
    toarrayLoop hs indices j = (indices.filter hs.bitmap).map hs.keys := by
  induction indices generalizing j with
  | nil => rfl
  | cons i rest ih =>
    rw [toarrayLoop]
    cases used : hs.bitmap i with
    | true =>
      rw [filter_cons_of_pos used, length_cons] at enough
      rw [if_pos (by omega), if_pos rfl, filter_cons_of_pos used, map_cons, ih _ (by omega)]
    | false =>
      have unused : ¬ hs.bitmap i = true := by simp [used]
      rw [filter_cons_of_neg unused] at enough ⊢
      by_cases more : j < hs.count
      · rw [if_pos more, if_neg Bool.false_ne_true, ih j enough]
      · rw [if_neg more, length_eq_zero_iff.mp (by omega : (rest.filter hs.bitmap).length = 0),
          map_nil]

/-- After any calls the bits are counted, the load is within the limit and every search ends; and
the array holds the keys of the slots exactly if there are any: an empty set is an error. -/
theorem hashset_sound_iff_nonempty
    (initialCapacity loadFactor : Nat)
    (run : SetRun (fun _ _ => True) (cliHashsetInit initialCapacity loadFactor) calls hs) :
    (hs.Fits ∧ (∀ key, ∃ idx < hs.capacity, cliHashsetSearch hs key = some idx) ∧
        cliHashsetToarray true hs =
          ((hs.count : Int), ((range hs.capacity).filter hs.bitmap).map hs.keys)) ↔
      hs.count ≠ 0 := by
  have fits := run.fits (cliHashsetInit_spec initialCapacity loadFactor).1
  constructor
  · rintro ⟨_, _, array⟩ isEmpty
    rw [cliHashsetToarray, if_pos (.inl isEmpty), isEmpty] at array
    cases congrArg Prod.fst array
  intro nonempty
  refine ⟨fits, fun key => ?_, ?_⟩
  · obtain ⟨moves, inside, stops⟩ := fits.exists_stopsAt key
    exact ⟨_, fits.sized.setPath_lt key moves, cliHashsetSearch_of_stopsAt fits inside stops⟩
  have counted := fits.length_filter
  have array := toarrayLoop_eq (range hs.capacity) 0 (by rw [counted, zero_add])
  rw [cliHashsetToarray, if_neg (by simp [nonempty])]
  simp only [array, length_map, counted]

/-- After any calls whose removals cut no path of another key, the set contains exactly the keys
whose last effective call was an add, each of them once; the next call returns, and a removal
keeps all other keys findable exactly if it cuts no path. -/
theorem hashset_contains_iff_last_add
    (initialCapacity loadFactor : Nat)
    (run : SetRun SafeRemoval (cliHashsetInit initialCapacity loadFactor) calls hs) :
    (∀ key, cliHashsetContains hs key = some (lastWasAdd calls key)) ∧
      (∀ key slot other, hs.Holds slot key → hs.Holds other key → slot = other) ∧
      (∀ key, ∃ after, cliHashsetAddkey true hs key = some (after, 0)) ∧
      ∀ key, ∃ after code, cliHashsetRemovekey hs key = some (after, code) ∧
        ((∀ other ≠ key, hs.Has other → cliHashsetContains after other = some true) ↔
          SafeRemoval hs (.remove key)) := by
  obtain ⟨fitsStart, placedStart, empty, _⟩ := cliHashsetInit_spec initialCapacity loadFactor
  obtain ⟨fits, placed, has⟩ := run.keeps fitsStart placedStart empty
  refine ⟨fun key => ?_, fun _ _ _ first second => placed.once first second, fun key => ?_,
    fun key => ?_⟩
  · obtain ⟨found, contains, isFound⟩ := placed.contains_iff fits key
    rw [contains, Bool.eq_iff_iff.mpr (isFound.trans (has key))]
  · obtain ⟨after, isAdded, _⟩ := cliHashsetAddkey_spec fits (fun _ => rfl) key
    exact ⟨after, isAdded⟩
  rcases cliHashsetRemovekey_spec fits key with
    ⟨idx, held, fitsAfter, isRemoved⟩ | ⟨absent, isRemoved⟩
  · refine ⟨_, _, isRemoved, fun found => ?_, fun safe other differs hasOther => ?_⟩
    · intro slot holds
      rw [placed.once holds held]
      exact placed.contains_vacate fits held found
    have placedAfter := (placed.vacate_iff fits idx).mpr (safe idx held)
    obtain ⟨found, contains, isFound⟩ := placedAfter.contains_iff fitsAfter other
    obtain ⟨slot, holds⟩ := hasOther
    have still : (hs.vacate idx).Holds slot other := by
      refine Hashset.vacate_holds_iff.mpr ⟨holds, ?_⟩
      rintro rfl
      exact differs (placed.single holds held)
    rw [contains, isFound.mpr ⟨slot, still⟩]
  · refine ⟨_, _, isRemoved, fun _ idx held => absurd ⟨idx, held⟩ (absent placed),
      fun _ other _ hasOther => ?_⟩
    obtain ⟨found, contains, isFound⟩ := placed.contains_iff fits other
    rw [contains, isFound.mpr hasOther]

/-- The set with the key 3 alone. -/
def oneKeySet : Hashset := (cliHashsetInit 16 80).occupy (setPath 64 3 0) 3

theorem hashset_contains_oneKeySet :
    cliHashsetContains (oneKeySet.vacate (setPath 64 3 0)) 3 = some false := by
  have added : cliHashsetAddkey true (cliHashsetInit 16 80) 3 = some (oneKeySet, 0) := rfl
  have removed : cliHashsetRemovekey oneKeySet 3 =
      some (oneKeySet.vacate (setPath 64 3 0), 0) := rfl
  have onlyKey {slot : Nat} {key : UInt32} (held : oneKeySet.Holds slot key) :
      slot = setPath 64 3 0 := by
    have free : (cliHashsetInit 16 80).Free (setPath 64 3 0) := rfl
    rcases (Hashset.occupy_holds_iff free).mp held with before | ⟨same, _⟩
    · exact nomatch before.1
    · exact same
  have safe : SafeRemoval oneKeySet (.remove 3) := fun _ held _ _ other differs =>
    absurd ((onlyKey other).trans (onlyKey held).symm) differs
  have first : SetRun SafeRemoval (cliHashsetInit 16 80) [(.add 3 true, 0)] oneKeySet :=
    .snoc .nil trivial (.add added)
  exact (hashset_contains_iff_last_add 16 80 (.snoc first safe (.remove removed))).1 3

/-- The keys 3 and 25 start at the same slot: removing 3 cuts the path to 25. -/
theorem hashset_loses_key_behind_removed : SetRun (fun _ _ => True) (cliHashsetInit 16 80)
        [(.add 3 true, 0), (.add 25 true, 0), (.remove 3, 0)]
        ((oneKeySet.occupy (setPath 64 25 1) 25).vacate (setPath 64 3 0)) ∧
      lastWasAdd [(.add 3 true, 0), (.add 25 true, 0), (.remove 3, 0)] 25 = true ∧
      cliHashsetContains ((oneKeySet.occupy (setPath 64 25 1) 25).vacate (setPath 64 3 0)) 25 =
        some false := by
  have first : cliHashsetAddkey true (cliHashsetInit 16 80) 3 = some (oneKeySet, 0) := rfl
  have second : cliHashsetAddkey true oneKeySet 25 =
      some (oneKeySet.occupy (setPath 64 25 1) 25, 0) := rfl
  have removed : cliHashsetRemovekey (oneKeySet.occupy (setPath 64 25 1) 25) 3 =
      some ((oneKeySet.occupy (setPath 64 25 1) 25).vacate (setPath 64 3 0), 0) := rfl
  exact ⟨.snoc (.snoc (.snoc .nil trivial (.add first)) trivial (.add second)) trivial
    (.remove removed), rfl, rfl⟩

theorem hashset_sound_oneKeySet : oneKeySet.count ≠ 0 ∧ oneKeySet.Fits := by
  have added : cliHashsetAddkey true (cliHashsetInit 16 80) 3 = some (oneKeySet, 0) := rfl
  exact ⟨by decide, ((hashset_sound_iff_nonempty 16 80
    (.snoc .nil trivial (.add added))).mpr (by decide)).1⟩

/-- A set without keys gives no array. -/
theorem hashset_toarray_empty :
    SetRun (fun _ _ => True) (cliHashsetInit 16 80) [] (cliHashsetInit 16 80) ∧
      cliHashsetToarray true (cliHashsetInit 16 80) = (21, []) :=
  ⟨.nil, rfl⟩

end LibClamav.Hashtab
