import LibClamav.HashtabSource

namespace LibClamav.Hashtab

open Probing

/-!
# The probe loops of the hash table

`cli_hashtab_find`, `cli_hashtab_grow` and `cli_hashtab_insert` each have a loop
of their own.  On a table whose capacity is a power of two all three look at the
slots of one path, which depends on the key and the capacity only.
-/

variable {slot moves : Nat} {deletedElement : Option Nat}

variable {δ : Type}

/-- The slots that are tried for a key, in a table of a given capacity. -/
def path
    (capacity : Nat)
    (key : List UInt8) :
    Nat → Nat := probe capacity (hash key capacity)

/-- An element that was never used. -/
def Hashtable.Free (s : Hashtable δ) (idx : Nat) : Prop := s.htable idx = .empty

/-- A deleted element. -/
def Hashtable.Buried (s : Hashtable δ) (idx : Nat) : Prop := s.htable idx = .deleted

/-- An element where the loop of `cli_hashtab_insert` does not go on. -/
def Hashtable.Open (s : Hashtable δ) (idx : Nat) : Prop := s.Free idx ∨ s.Buried idx

/-- An element that the code takes for the one of a key. -/
def Hashtable.Matches (s : Hashtable δ) (idx : Nat) (key : List UInt8) : Prop :=
  ∃ stored data, s.htable idx = .full stored data ∧ sameKey key stored = true

section

variable (num : Nat)

theorem nearestPowerLoop_spec : ∀ rounds bits, num ≤ 2 ^ bits + rounds →
      ∃ more, nearestPowerLoop num rounds (2 ^ bits) = 2 ^ (bits + more) ∧
        num ≤ 2 ^ (bits + more) := by
  intro rounds
  induction rounds with
  | zero =>
    intro bits enough
    exact ⟨0, rfl, enough⟩
  | succ rounds ih =>
    intro bits enough
    rw [nearestPowerLoop]
    split_ifs with small
    · rw [← pow_succ]
      have positive : 0 < 2 ^ bits := Nat.two_pow_pos bits
      obtain ⟨more, reached, above⟩ := ih (bits + 1) (by rw [pow_succ]; omega)
      refine ⟨more + 1, ?_, ?_⟩
      · rw [reached, add_assoc, add_comm 1]
      · rwa [add_comm more, ← add_assoc]
    · exact ⟨0, rfl, not_lt.mp small⟩

/-- The capacity is a power of two that is large enough. -/
theorem nearestPower_spec : ∃ more, nearestPower num = 2 ^ (6 + more) ∧ num ≤ 2 ^ (6 + more) :=
  nearestPowerLoop_spec num num 6 (Nat.le_add_left _ _)

/-- The capacities that `nearest_power` gives. -/
def Sized (capacity : Nat) : Prop := ∃ more, capacity = 2 ^ (6 + more)

theorem sized_nearestPower : Sized (nearestPower num) := by
  obtain ⟨more, power, _⟩ := nearestPower_spec num
  exact ⟨more, power⟩

theorem le_nearestPower : num ≤ nearestPower num := by
  obtain ⟨more, power, above⟩ := nearestPower_spec num
  rw [power]
  exact above

variable {capacity : Nat} (sized : Sized capacity)

include sized

theorem Sized.le : 64 ≤ capacity := by
  obtain ⟨more, rfl⟩ := sized
  exact Nat.pow_le_pow_right Nat.zero_lt_two (Nat.le_add_right 6 more)

theorem Sized.double_le : 2 * capacity ≤ nearestPower (capacity + 1) := by
  obtain ⟨more, rfl⟩ := sized
  obtain ⟨larger, power, above⟩ := nearestPower_spec (2 ^ (6 + more) + 1)
  rw [power, ← pow_succ']
  exact Nat.pow_le_pow_right Nat.zero_lt_two ((Nat.pow_lt_pow_iff_right Nat.one_lt_two).mp above)

/-- The mask is a remainder. -/
theorem Sized.mask_eq_mod
    (number : Nat) :
    number &&& (capacity - 1) = number % capacity := by
  obtain ⟨more, rfl⟩ := sized
  exact Nat.and_two_pow_sub_one_eq_mod number (6 + more)

theorem Sized.hash_lt
    (key : List UInt8) :
    hash key capacity < capacity := by
  rw [hash, sized.mask_eq_mod]
  exact Nat.mod_lt _ (lt_of_lt_of_le (by decide) sized.le)

theorem Sized.path_lt
    (key : List UInt8)
    (moves : Nat) :
    path capacity key moves < capacity :=
  probe_lt (sized.hash_lt key) moves

/-- The slots met within as many tries as the table has are distinct. -/
theorem Sized.probe_injective
    {start first second : Nat}
    (startInside : start < capacity)
    (firstInside : first < capacity)
    (secondInside : second < capacity)
    (meets : probe capacity start first = probe capacity start second) :
    first = second := by
  obtain ⟨more, rfl⟩ := sized
  rcases le_total first second with ordered | ordered
  · exact Probing.probe_injective startInside ordered secondInside meets
  · exact (Probing.probe_injective startInside ordered firstInside meets.symm).symm

theorem Sized.exists_probe_eq
    {start : Nat}
    (startInside : start < capacity)
    (inside : slot < capacity) :
    ∃ moves < capacity, probe capacity start moves = slot := by
  obtain ⟨more, rfl⟩ := sized
  exact Probing.exists_probe_eq startInside inside

/-- A path meets every place. -/
theorem Sized.exists_path_eq
    (key : List UInt8)
    (inside : slot < capacity) :
    ∃ moves < capacity, path capacity key moves = slot :=
  sized.exists_probe_eq (sized.hash_lt key) inside

end

section

variable {s : Hashtable δ} {key : List UInt8} (sized : Sized s.capacity)

include sized

/-- The search goes on at a place of another key. -/
theorem findLoop_pass
    (notFree : ¬ s.Free (path s.capacity key moves))
    (differs : ¬ s.Matches (path s.capacity key moves) key)
    (left : Nat) :
    findLoop s key (left + 1) (path s.capacity key moves) (moves + 1) =
      findLoop s key left (path s.capacity key (moves + 1)) (moves + 1 + 1) := by
  rw [findLoop, sized.mask_eq_mod]
  cases element : s.htable (path s.capacity key moves) with
  | empty => exact absurd element notFree
  | deleted => rfl
  | full stored data =>
    have other : ¬ sameKey key stored = true := fun same => differs ⟨stored, data, element, same⟩
    exact if_neg other

/-- So it does at several of them. -/
theorem findLoop_advance
    (left : Nat) :
    ∀ moves, (∀ earlier < moves, ¬ s.Free (path s.capacity key earlier)) →
      (∀ earlier < moves, ¬ s.Matches (path s.capacity key earlier) key) →
      findLoop s key (left + moves) (path s.capacity key 0) 1 =
        findLoop s key left (path s.capacity key moves) (moves + 1) := by
  intro moves notFree differs
  exact loop_advance (fun left moves => findLoop s key left (path s.capacity key moves) (moves + 1))
    left moves fun left earlier isBefore =>
      findLoop_pass sized (notFree earlier isBefore) (differs earlier isBefore) left

/-- The search loop of `cli_hashtab_find`, where it stops. -/
theorem cliHashtabFind_of_stopsAt
    (inside : moves < s.capacity)
    (stops : StopsAt (path s.capacity) s.Free s.Matches key moves) :
    (s.Free (path s.capacity key moves) → cliHashtabFind s key = none) ∧
      (s.Matches (path s.capacity key moves) key →
        cliHashtabFind s key = some (path s.capacity key moves)) := by
  obtain ⟨left, rounds⟩ : ∃ left, s.capacity = left + 1 + moves :=
    ⟨s.capacity - 1 - moves, by omega⟩
  have advanced : cliHashtabFind s key =
        findLoop s key (left + 1) (path s.capacity key moves) (moves + 1) := by
    rw [← findLoop_advance sized (left + 1) moves stops.notFree stops.notHeld, ← rounds]
    rfl
  refine ⟨fun isFree => ?_, fun ⟨stored, data, element, same⟩ => ?_⟩
  · rw [advanced, findLoop, show s.htable (path s.capacity key moves) = .empty from isFree]
  · rw [advanced, findLoop, element]
    exact if_pos same

/-- A path without an end finds nothing. -/
theorem cliHashtabFind_of_full
    (notFree : ∀ moves < s.capacity, ¬ s.Free (path s.capacity key moves))
    (differs : ∀ moves < s.capacity, ¬ s.Matches (path s.capacity key moves) key) :
    cliHashtabFind s key = none := by
  have advanced := findLoop_advance sized 0 s.capacity notFree differs
  rw [zero_add] at advanced
  exact advanced

end

section

variable {htable : Nat → Element δ} {capacity : Nat} {key : List UInt8}

theorem rehashLoop_free
    {idx : Nat}
    (isFree : htable idx = .empty)
    (left tries : Nat) :
    rehashLoop htable capacity left idx tries = some idx := by
  cases left with
  | zero | succ left => rw [rehashLoop, isFree]

theorem rehashLoop_pass
    (taken : htable (path capacity key moves) ≠ .empty)
    (left : Nat) :
    rehashLoop htable capacity (left + 1) (path capacity key moves) (moves + 1) =
      rehashLoop htable capacity left (path capacity key (moves + 1)) (moves + 1 + 1) := by
  rw [rehashLoop]
  cases element : htable (path capacity key moves) with
  | empty => exact absurd element taken
  | deleted | full stored data => rfl

/-- An element moves to the first free place of its path. -/
theorem rehashLoop_of_first
    (isFree : htable (path capacity key moves) = .empty)
    (left : Nat)
    (taken : ∀ earlier < moves, htable (path capacity key earlier) ≠ .empty) :
    rehashLoop htable capacity (left + moves) (path capacity key 0) 1 =
      some (path capacity key moves) := by
  have advanced := loop_advance
    (fun left moves => rehashLoop htable capacity left (path capacity key moves) (moves + 1))
    left moves fun left earlier isBefore => rehashLoop_pass (taken earlier isBefore) left
  exact advanced.trans (rehashLoop_free isFree _ _)

end

variable {s : Hashtable δ} {key : List UInt8}

/-- The inner loop of `cli_hashtab_insert` goes on behind an element of another key. -/
theorem insertProbe_pass
    {start : Nat}
    (inside : moves + 1 < s.capacity)
    (notOpen : ¬ s.Open (probe s.capacity start moves))
    (differs : ¬ s.Matches (probe s.capacity start moves) key)
    (rounds : Nat)
    (deletedElement : Option Nat) :
    insertProbe s key (rounds + 1) (probe s.capacity start moves) (moves + 1) deletedElement =
      insertProbe s key rounds (probe s.capacity start (moves + 1)) (moves + 1 + 1)
        deletedElement := by
  rw [insertProbe]
  cases element : s.htable (probe s.capacity start moves) with
  | empty => exact absurd (.inl element) notOpen
  | deleted => exact absurd (.inr element) notOpen
  | full stored data =>
    have other : ¬ sameKey key stored = true := fun same => differs ⟨stored, data, element, same⟩
    dsimp only
    rw [if_neg other, if_pos (Nat.succ_le_of_lt inside)]
    rfl

/-- The loop passes over elements of other keys, wherever it stands. -/
theorem insertProbe_advance
    {start : Nat}
    (rounds first moves : Nat)
    (deletedElement : Option Nat)
    (inside : first + moves < s.capacity)
    (notOpen : ∀ earlier < moves, ¬ s.Open (probe s.capacity start (first + earlier)))
    (differs : ∀ earlier < moves, ¬ s.Matches (probe s.capacity start (first + earlier)) key) :
    insertProbe s key (rounds + moves) (probe s.capacity start first) (first + 1)
        deletedElement =
      insertProbe s key rounds (probe s.capacity start (first + moves)) (first + moves + 1)
        deletedElement :=
  loop_advance (fun left moves => insertProbe s key left (probe s.capacity start (first + moves))
      (first + moves + 1) deletedElement) rounds moves fun left earlier isBefore =>
    insertProbe_pass (by omega) (notOpen earlier isBefore) (differs earlier isBefore) left
      deletedElement

/-- The first round passes over elements of other keys along the path of the key. -/
theorem insertProbe_path
    (rounds moves : Nat)
    (inside : moves < s.capacity)
    (notOpen : ∀ earlier < moves, ¬ s.Open (path s.capacity key earlier))
    (differs : ∀ earlier < moves, ¬ s.Matches (path s.capacity key earlier) key) :
    insertProbe s key (rounds + moves) (hash key s.capacity) 1 none =
      insertProbe s key rounds (path s.capacity key moves) (moves + 1) none :=
  loop_advance (fun left moves => insertProbe s key left (path s.capacity key moves)
      (moves + 1) none) rounds moves fun left earlier isBefore =>
    insertProbe_pass (by omega) (notOpen earlier isBefore) (differs earlier isBefore) left none

variable {idx tries : Nat}

/-- A place that is buried is probed for ever. -/
theorem insertProbe_buried
    (buried : s.Buried idx)
    (inside : tries ≤ s.capacity) :
    ∀ rounds deletedElement, insertProbe s key rounds idx tries deletedElement = none := by
  intro rounds
  induction rounds with
  | zero => exact fun _ => rfl
  | succ rounds ih =>
    intro deletedElement
    rw [insertProbe, show s.htable idx = .deleted from buried]
    rw [if_pos inside]
    exact ih (some idx)

variable {rounds : Nat} {ended : Probe}

theorem insertProbe_mono
    (result : insertProbe s key rounds idx tries deletedElement = some ended) :
    insertProbe s key (rounds + 1) idx tries deletedElement = some ended := by
  induction rounds generalizing idx tries deletedElement with
  | zero => exact absurd result nofun
  | succ rounds ih =>
    rw [insertProbe] at result ⊢
    cases element : s.htable idx with
    | empty =>
      rw [element] at result
      exact result
    | deleted =>
      rw [element] at result
      dsimp only at result ⊢
      split_ifs at result ⊢ with inside
      · exact ih result
      · exact result
    | full stored data =>
      rw [element] at result
      dsimp only at result ⊢
      split_ifs at result ⊢ with same inside
      · exact result
      · exact ih result
      · exact result

theorem insertProbe_le
    {more : Nat}
    (fewer : rounds ≤ more)
    (result : insertProbe s key rounds idx tries deletedElement = some ended) :
    insertProbe s key more idx tries deletedElement = some ended := by
  induction fewer with
  | refl => exact result
  | step _ ih => exact insertProbe_mono ih

/-- The loop stops at an unused element, or at one of the key. -/
theorem insertProbe_here
    (here : s.Free idx ∨ s.Matches idx key)
    (rounds tries : Nat) :
    insertProbe s key (rounds + 1) idx tries none =
      some (if s.htable idx matches .empty then .place idx else .update idx) := by
  rw [insertProbe]
  rcases here with isFree | ⟨stored, data, element, same⟩
  · rw [show s.htable idx = .empty from isFree]
    rfl
  · rw [element]
    exact if_pos same

/-- The loop ends at an element of another key when the tries are used up. -/
theorem insertProbe_last
    (notOpen : ¬ s.Open idx)
    (differs : ¬ s.Matches idx key)
    (isLast : s.capacity ≤ tries)
    (rounds : Nat)
    (deletedElement : Option Nat) :
    insertProbe s key (rounds + 1) idx tries deletedElement =
      some (.exhausted deletedElement (tries + 1)) := by
  rw [insertProbe]
  cases element : s.htable idx with
  | empty => exact absurd (.inl element) notOpen
  | deleted => exact absurd (.inr element) notOpen
  | full stored data =>
    have other : ¬ sameKey key stored = true := fun same => differs ⟨stored, data, element, same⟩
    have isEnd : ¬ tries + 1 ≤ s.capacity := by omega
    dsimp only
    rw [if_neg other, if_neg isEnd]

/--
From any place of a sequence of tries, in a table without deleted elements, the loop ends;
if it finds no place, then none of the elements up to the end of the sequence was unused.
-/
theorem insertProbe_from
    {start first : Nat}
    (inside : first < s.capacity)
    (notBuried : ∀ idx, ¬ s.Buried idx) :
    ∃ ended, insertProbe s key s.capacity (probe s.capacity start first) (first + 1) none =
        some ended ∧
      ∀ deletedElement tries, ended = .exhausted deletedElement tries →
        deletedElement = none ∧ tries = s.capacity + 1 ∧
          ∀ moves, first ≤ moves → moves < s.capacity →
            ¬ s.Free (probe s.capacity start moves) := by
  classical
  by_cases reached : ∃ moves, first + moves < s.capacity ∧
      (s.Free (probe s.capacity start (first + moves)) ∨
        s.Matches (probe s.capacity start (first + moves)) key)
  · obtain ⟨isInside, here⟩ := Nat.find_spec reached
    have before : ∀ earlier < Nat.find reached,
        ¬ s.Open (probe s.capacity start (first + earlier)) ∧
          ¬ s.Matches (probe s.capacity start (first + earlier)) key := by
      intro earlier isBefore
      have notYet := Nat.find_min reached isBefore
      refine ⟨?_, fun found => notYet ⟨by omega, .inr found⟩⟩
      rintro (isFree | buried)
      · exact notYet ⟨by omega, .inl isFree⟩
      · exact notBuried _ buried
    have advanced := insertProbe_advance 1 first (Nat.find reached) none isInside
      (fun earlier isBefore => (before earlier isBefore).1)
      (fun earlier isBefore => (before earlier isBefore).2)
    rw [insertProbe_here here] at advanced
    refine ⟨_, insertProbe_le (by omega) advanced, fun deletedElement tries isExhausted => ?_⟩
    split at isExhausted <;> cases isExhausted
  · have notOpen : ∀ moves, first + moves < s.capacity →
        ¬ s.Open (probe s.capacity start (first + moves)) := by
      rintro moves isInside (isFree | buried)
      · exact reached ⟨moves, isInside, .inl isFree⟩
      · exact notBuried _ buried
    have differs : ∀ moves, first + moves < s.capacity →
        ¬ s.Matches (probe s.capacity start (first + moves)) key :=
      fun moves isInside found => reached ⟨moves, isInside, .inr found⟩
    obtain ⟨rest, isRest⟩ : ∃ rest, s.capacity = first + rest + 1 :=
      ⟨s.capacity - first - 1, by omega⟩
    have advanced := insertProbe_advance 1 first rest none (by omega)
      (fun earlier isBefore => notOpen earlier (by omega))
      (fun earlier isBefore => differs earlier (by omega))
    rw [insertProbe_last (notOpen rest (by omega)) (differs rest (by omega)) (by omega)]
      at advanced
    refine ⟨_, insertProbe_le (by omega) advanced, fun deletedElement tries isExhausted => ?_⟩
    cases isExhausted
    refine ⟨rfl, by omega, fun moves notBefore isInside isFree => ?_⟩
    obtain ⟨more, rfl⟩ := Nat.exists_eq_add_of_le notBefore
    exact notOpen more isInside (.inl isFree)

/-- The ways the inner loop of `cli_hashtab_insert` can end. -/
inductive Ends (s : Hashtable δ) (key : List UInt8) : Probe → Prop where
  | place {moves : Nat} : moves < s.capacity →
      StopsAt (path s.capacity) s.Open s.Matches key moves →
      s.Free (path s.capacity key moves) →
      Ends s key (.place (path s.capacity key moves))
  | update {moves : Nat} : moves < s.capacity →
      StopsAt (path s.capacity) s.Open s.Matches key moves →
      s.Matches (path s.capacity key moves) key →
      Ends s key (.update (path s.capacity key moves))
  | exhausted : (∀ moves < s.capacity, ¬ s.Open (path s.capacity key moves)) →
      (∀ moves < s.capacity, ¬ s.Matches (path s.capacity key moves) key) →
      Ends s key (.exhausted none (s.capacity + 1))

/-- The first open or matching element on the path of a key is a deleted one. -/
def MeetsBuried (s : Hashtable δ) (key : List UInt8) : Prop :=
  ∃ moves < s.capacity, StopsAt (path s.capacity) s.Open s.Matches key moves ∧
    s.Buried (path s.capacity key moves)

/-- A probe ends or meets a buried place. -/
theorem ends_or_meetsBuried
    (s : Hashtable δ)
    (key : List UInt8) :
    (∃ ended, Ends s key ended) ∨ MeetsBuried s key := by
  by_cases reached : ∃ moves < s.capacity,
      s.Open (path s.capacity key moves) ∨ s.Matches (path s.capacity key moves) key
  · obtain ⟨moves, inside, here⟩ := reached
    obtain ⟨stop, notLater, stops⟩ :
        ∃ stop ≤ moves, StopsAt (path s.capacity) s.Open s.Matches key stop :=
      exists_stopsAt here
    have stopInside := lt_of_le_of_lt notLater inside
    rcases stops.here with (isFree | buried) | found
    · exact .inl ⟨_, .place stopInside stops isFree⟩
    · exact .inr ⟨stop, stopInside, stops, buried⟩
    · exact .inl ⟨_, .update stopInside stops found⟩
  · refine .inl ⟨_, .exhausted ?_ ?_⟩
    · exact fun moves inside isOpen => reached ⟨moves, inside, .inl isOpen⟩
    · exact fun moves inside found => reached ⟨moves, inside, .inr found⟩

/-- A probe that ends does so within the capacity. -/
theorem Ends.insertProbe_eq
    (sized : Sized s.capacity)
    (ends : Ends s key ended)
    (enough : s.capacity ≤ rounds) :
    insertProbe s key rounds (hash key s.capacity) 1 none = some ended := by
  refine insertProbe_le enough ?_
  cases ends with
  | @place moves inside stops isFree =>
    have advanced := insertProbe_path 1 moves inside stops.notFree stops.notHeld
    refine insertProbe_le (Nat.one_add_le_iff.mpr inside) (advanced.trans ?_)
    rw [insertProbe, show s.htable (path s.capacity key moves) = .empty from isFree]
    rfl
  | @update moves inside stops found =>
    obtain ⟨stored, data, element, same⟩ := found
    have advanced := insertProbe_path 1 moves inside stops.notFree stops.notHeld
    refine insertProbe_le (Nat.one_add_le_iff.mpr inside) (advanced.trans ?_)
    rw [insertProbe, element]
    exact if_pos same
  | exhausted notOpen differs =>
    obtain ⟨last, isLast⟩ : ∃ last, s.capacity = 1 + last :=
      Nat.exists_eq_add_of_le (le_trans (by decide) sized.le)
    have advanced := insertProbe_path 1 last (by omega)
      (fun earlier isBefore => notOpen earlier (by omega))
      (fun earlier isBefore => differs earlier (by omega))
    refine insertProbe_le (le_of_eq isLast.symm) (advanced.trans ?_)
    rw [insertProbe_last (notOpen last (by omega)) (differs last (by omega)) (by omega),
      show last + 1 + 1 = s.capacity + 1 by omega]

/-- A loop that meets a deleted element first does not end. -/
theorem MeetsBuried.insertProbe_eq
    (meets : MeetsBuried s key)
    (rounds : Nat) :
    insertProbe s key rounds (hash key s.capacity) 1 none = none := by
  obtain ⟨moves, inside, stops, buried⟩ := meets
  have never : insertProbe s key (rounds + moves) (hash key s.capacity) 1 none = none :=
    (insertProbe_path rounds moves inside stops.notFree stops.notHeld).trans
      (insertProbe_buried buried inside rounds none)
  cases result : insertProbe s key rounds (hash key s.capacity) 1 none with
  | none => rfl
  | some ended =>
    rw [insertProbe_le (Nat.le_add_right rounds moves) result] at never
    exact absurd never nofun

/-- What a probe returns is where it ends. -/
theorem ends_of_insertProbe
    (sized : Sized s.capacity)
    (result : insertProbe s key rounds (hash key s.capacity) 1 none = some ended) :
    Ends s key ended := by
  rcases ends_or_meetsBuried s key with ⟨other, ends⟩ | meets
  · have same := ends.insertProbe_eq sized (Nat.le_add_left s.capacity rounds)
    rw [insertProbe_le (Nat.le_add_right rounds s.capacity) result] at same
    rw [Option.some.inj same]
    exact ends
  · rw [meets.insertProbe_eq rounds] at result
    exact absurd result nofun

end LibClamav.Hashtab
