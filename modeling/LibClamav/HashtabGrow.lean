import LibClamav.HashtabProbe

namespace LibClamav.Hashtab

open Probing List Function

/-!
# Growth of the hash table

`cli_hashtab_grow` moves every element that is not deleted to the first unused
slot of its path in a larger table.  The larger table always has room, so that a
growth fails only if its allocation does.
-/

variable {δ : Type}

/-- The test `!element->key`. -/
def Element.isEmpty : Element δ → Bool
  | .empty => true
  | _ => false

variable {element : Element δ}

theorem Element.isEmpty_iff : element.isEmpty = true ↔ element = .empty := by
  cases element with
  | empty => exact ⟨fun _ => rfl, fun _ => rfl⟩
  | deleted | full key data => exact ⟨nofun, nofun⟩

/-- The slots of a table that are in use, deleted elements included. -/
def taken (htable : Nat → Element δ) (capacity : Nat) : Finset Nat :=
  (Finset.range capacity).filter (fun idx => (htable idx).isEmpty = false)

variable {htable : Nat → Element δ} {capacity idx : Nat} {data : δ} {key : List UInt8}

theorem mem_taken : idx ∈ taken htable capacity ↔ idx < capacity ∧ htable idx ≠ .empty := by
  rw [taken, Finset.mem_filter, Finset.mem_range, Bool.eq_false_iff, Ne, Element.isEmpty_iff]

theorem taken_card_le
    (htable : Nat → Element δ)
    (capacity : Nat) :
    (taken htable capacity).card ≤ capacity :=
  (Finset.card_filter_le _ _).trans_eq (Finset.card_range capacity)

theorem taken_empty (capacity : Nat) : taken (fun _ => (.empty : Element δ)) capacity = ∅ :=
  Finset.filter_false_of_mem fun _ _ => nofun

/-- A table that is not full has a free place. -/
theorem exists_free_of_taken_lt
    (room : (taken htable capacity).card < capacity) :
    ∃ idx < capacity, htable idx = .empty := by
  by_contra noneFree
  have everything : taken htable capacity = Finset.range capacity :=
    Finset.filter_true_of_mem fun idx inside =>
      Bool.eq_false_iff.mpr fun isFree =>
        noneFree ⟨idx, Finset.mem_range.mp inside, Element.isEmpty_iff.mp isFree⟩
  rw [everything, Finset.card_range] at room
  exact lt_irrefl _ room

theorem taken_update_card
    (inside : idx < capacity)
    (isFree : htable idx = .empty)
    (used : element ≠ .empty) :
    (taken (update htable idx element) capacity).card = (taken htable capacity).card + 1 := by
  have grows : taken (update htable idx element) capacity = insert idx (taken htable capacity) := by
    ext other
    rw [Finset.mem_insert, mem_taken, mem_taken]
    by_cases same : other = idx
    · subst same
      rw [update_self]
      exact ⟨fun _ => .inl rfl, fun _ => ⟨inside, used⟩⟩
    · rw [update_of_ne same]
      exact ⟨.inr, fun either => either.resolve_left same⟩
  rw [grows, Finset.card_insert_of_notMem]
  exact fun isTaken => (mem_taken.mp isTaken).2 isFree

theorem taken_update_eq
    (inUse : htable idx ≠ .empty)
    (used : element ≠ .empty)
    (capacity : Nat) :
    taken (update htable idx element) capacity = taken htable capacity := by
  ext other
  rw [mem_taken, mem_taken]
  by_cases same : other = idx
  · rw [same, update_self]
    exact and_congr_right' ⟨fun _ => inUse, fun _ => used⟩
  · rw [update_of_ne same]

/-- It is met by every path. -/
theorem exists_first_free
    (sized : Sized capacity)
    (room : (taken htable capacity).card < capacity)
    (key : List UInt8) :
    ∃ moves < capacity, htable (path capacity key moves) = .empty ∧
      ∀ earlier < moves, htable (path capacity key earlier) ≠ .empty := by
  obtain ⟨idx, inside, isFree⟩ := exists_free_of_taken_lt room
  obtain ⟨moves, movesInside, atIdx⟩ := sized.exists_path_eq key inside
  obtain ⟨stop, notLater, stops⟩ :
      ∃ stop ≤ moves, StopsAt (path capacity) (fun slot => htable slot = .empty)
        (fun _ _ => False) key stop :=
    exists_stopsAt (.inl (atIdx ▸ isFree))
  exact ⟨stop, lt_of_le_of_lt notLater movesInside, stops.here.resolve_right id, stops.notFree⟩

theorem eq_of_update_full
    {other : Nat}
    {stored : List UInt8}
    {found : δ}
    (element : update htable idx (.full key data) other = .full stored found) :
    other = idx ∧ stored = key ∧ found = data ∨
      other ≠ idx ∧ htable other = .full stored found := by
  by_cases same : other = idx
  · simpa [same, eq_comm] using element
  · simpa [same] using element

theorem update_full_not_deleted
    (notBuried : ∀ idx, htable idx ≠ .deleted)
    (idx : Nat)
    (key : List UInt8)
    (data : δ)
    (other : Nat) :
    update htable idx (.full key data) other ≠ .deleted := by
  by_cases same : other = idx
  · simp [same]
  · simp [same, notBuried other]

/-- A key is stored with its data somewhere in a table. -/
def Stored (htable : Nat → Element δ) (key : List UInt8) (data : δ) : Prop :=
  ∃ idx, htable idx = .full key data

/-- A place that is written stores its key. -/
theorem stored_update_iff
    (isFree : htable idx = .empty)
    {other : List UInt8}
    {otherData : δ} :
    Stored (update htable idx (.full key data)) other otherData ↔
      Stored htable other otherData ∨ other = key ∧ otherData = data := by
  constructor
  · rintro ⟨slot, element⟩
    rcases eq_of_update_full element with ⟨_, same⟩ | ⟨_, old⟩
    · exact .inr same
    · exact .inl ⟨slot, old⟩
  rintro (⟨slot, element⟩ | ⟨rfl, rfl⟩)
  · have same : slot ≠ idx := by
      rintro rfl
      rw [isFree] at element
      exact absurd element nofun
    exact ⟨slot, (update_of_ne same _ _).trans element⟩
  · exact ⟨idx, update_self _ _ _⟩

section

variable {newCapacity : Nat} {grown : (Nat → Element δ) × Nat}

/-- An element is moved to a free place. -/
theorem rehashElement_full
    (sized : Sized newCapacity)
    (room : (taken grown.1 newCapacity).card < newCapacity)
    (key : List UInt8)
    (data : δ) :
    ∃ moves < newCapacity, grown.1 (path newCapacity key moves) = .empty ∧
      (∀ earlier < moves, grown.1 (path newCapacity key earlier) ≠ .empty) ∧
      rehashElement newCapacity grown (.full key data) =
        some (update grown.1 (path newCapacity key moves) (.full key data), grown.2 + 1) := by
  obtain ⟨moves, inside, isFree, before⟩ := exists_first_free sized room key
  refine ⟨moves, inside, isFree, before, ?_⟩
  have placed : rehashLoop grown.1 newCapacity newCapacity (hash key newCapacity) 1 =
      some (path newCapacity key moves) := by
    have found := rehashLoop_of_first isFree (newCapacity - moves) before
    rwa [Nat.sub_add_cancel (Nat.le_of_lt inside)] at found
  rw [rehashElement, placed]

/-- What holds of the new table while the old elements are moved. -/
structure Filling (newCapacity : Nat) (grown : (Nat → Element δ) × Nat) : Prop where
  count : (taken grown.1 newCapacity).card = grown.2
  notBuried : ∀ idx, grown.1 idx ≠ .deleted

theorem Filling.update
    (filling : Filling newCapacity grown)
    (inside : idx < newCapacity)
    (isFree : grown.1 idx = .empty)
    (key : List UInt8)
    (data : δ) :
    Filling newCapacity (update grown.1 idx (.full key data), grown.2 + 1) where
  count := by
    have used : Element.full key data ≠ .empty := nofun
    exact (taken_update_card inside isFree used).trans (congrArg (· + 1) filling.count)
  notBuried := update_full_not_deleted filling.notBuried idx key data

/-- The elements of the old table at some indices were moved to the new one. -/
structure Moved (newCapacity : Nat) (old : Nat → Element δ) (indices : List Nat)
    (grown filled : (Nat → Element δ) × Nat) : Prop where
  folded : indices.foldlM (fun grown i => rehashElement newCapacity grown (old i)) grown =
    some filled
  filling : Filling newCapacity filled
  count : filled.2 ≤ grown.2 + (indices.filter (fun i => !(old i).isEmpty)).length
  stored : ∀ key data, Stored filled.1 key data ↔
    Stored grown.1 key data ∨ ∃ i ∈ indices, old i = .full key data

variable {old : Nat → Element δ} {indices : List Nat} {filled : (Nat → Element δ) × Nat} {i : Nat}

theorem Moved.skip
    (moved : Moved newCapacity old indices grown filled)
    (notFull : ∀ key data, old i ≠ .full key data) :
    Moved newCapacity old (i :: indices) grown filled := by
  have skipped : rehashElement newCapacity grown (old i) = some grown := by
    cases element : old i with
    | empty | deleted => rfl
    | full key data => exact absurd element (notFull key data)
  refine ⟨?_, moved.filling, ?_, fun key data => ?_⟩
  · rw [foldlM_cons, skipped]
    exact moved.folded
  · refine moved.count.trans (Nat.add_le_add_left ?_ _)
    exact (List.Sublist.filter _ (sublist_cons_self i indices)).length_le
  rw [moved.stored]
  refine or_congr_right ⟨?_, ?_⟩
  · exact fun ⟨j, isMember, element⟩ => ⟨j, mem_cons_of_mem _ isMember, element⟩
  rintro ⟨j, isMember, element⟩
  rcases mem_cons.mp isMember with rfl | inRest
  · exact absurd element (notFull key data)
  · exact ⟨j, inRest, element⟩

theorem Moved.move
    (moved : Moved newCapacity old indices
      (update grown.1 idx (.full key data), grown.2 + 1) filled)
    (element : old i = .full key data)
    (isFree : grown.1 idx = .empty)
    (rehashed : rehashElement newCapacity grown (.full key data) =
      some (update grown.1 idx (.full key data), grown.2 + 1)) :
    Moved newCapacity old (i :: indices) grown filled := by
  refine ⟨?_, moved.filling, ?_, fun other otherData => ?_⟩
  · rw [foldlM_cons, element, rehashed]
    exact moved.folded
  · have inUse : (!(Element.full key data).isEmpty) = true := rfl
    rw [filter_cons, element, if_pos inUse, length_cons, add_comm _ 1, ← add_assoc]
    exact moved.count
  rw [moved.stored, stored_update_iff isFree, or_assoc]
  refine or_congr_right ⟨?_, ?_⟩
  · rintro (⟨rfl, rfl⟩ | ⟨j, isMember, full⟩)
    · exact ⟨i, mem_cons_self, element⟩
    · exact ⟨j, mem_cons_of_mem _ isMember, full⟩
  rintro ⟨j, isMember, full⟩
  rcases mem_cons.mp isMember with rfl | inRest
  · have same := Element.full.inj (element.symm.trans full)
    exact .inl ⟨same.1.symm, same.2.symm⟩
  · exact .inr ⟨j, inRest, full⟩

/-- All elements are moved. -/
theorem exists_moved
    (sized : Sized newCapacity)
    (old : Nat → Element δ)
    (indices : List Nat)
    (grown : (Nat → Element δ) × Nat)
    (filling : Filling newCapacity grown)
    (enough : grown.2 + indices.length ≤ newCapacity) :
    ∃ filled, Moved newCapacity old indices grown filled := by
  induction indices generalizing grown with
  | nil =>
    refine ⟨grown, rfl, filling, le_rfl, fun key data => ?_⟩
    exact ⟨.inl, fun either => either.resolve_right (fun ⟨_, isMember, _⟩ => nomatch isMember)⟩
  | cons i rest ih =>
    rw [length_cons] at enough
    have skip (notFull : ∀ key data, old i ≠ .full key data) :
        ∃ filled, Moved newCapacity old (i :: rest) grown filled := by
      obtain ⟨filled, moved⟩ := ih grown filling (by omega)
      exact ⟨filled, moved.skip notFull⟩
    cases element : old i with
    | empty | deleted => exact skip fun _ _ same => nomatch element.symm.trans same
    | full key data =>
      have room : (taken grown.1 newCapacity).card < newCapacity := by
        rw [filling.count]
        omega
      obtain ⟨moves, _, isFree, _, rehashed⟩ := rehashElement_full sized room key data
      obtain ⟨filled, moved⟩ :=
        ih _ (filling.update (sized.path_lt key moves) isFree key data) (by dsimp only; omega)
      exact ⟨filled, moved.move element isFree rehashed⟩

end

variable {s : Hashtable δ}

/-- The table after a growth. -/
structure Grown (s grown : Hashtable δ) : Prop where
  capacity : grown.capacity = nearestPower (s.capacity + 1)
  maxfill : grown.maxfill = grown.capacity * 8 / 10
  moved : Moved grown.capacity s.htable (range s.capacity) (fun _ => .empty, 0)
    (grown.htable, grown.used)

/-- A growth that gets its memory moves all elements. -/
theorem cliHashtabGrow_spec
    (sized : Sized s.capacity) :
    ∃ grown, cliHashtabGrow true s = some grown ∧ Grown s grown := by
  have larger := sized.double_le
  have positive := sized.le
  have start : Filling (nearestPower (s.capacity + 1)) (fun _ => (.empty : Element δ), 0) :=
    ⟨congrArg Finset.card (taken_empty _), nofun⟩
  obtain ⟨filled, moved⟩ := exists_moved (sized_nearestPower (s.capacity + 1)) s.htable
    (range s.capacity) _ start (by rw [length_range]; omega)
  refine ⟨⟨filled.1, nearestPower (s.capacity + 1), filled.2,
    nearestPower (s.capacity + 1) * 8 / 10⟩, ?_, rfl, rfl, moved⟩
  have isLarger : ¬ (nearestPower (s.capacity + 1) = s.capacity ∨ true = false) := by
    rintro (same | impossible)
    · omega
    · exact nomatch impossible
  rw [cliHashtabGrow, if_neg isLarger, moved.folded]

theorem cliHashtabGrow_false : cliHashtabGrow false s = none := if_pos (.inr rfl)

/-- A property that a growth gives holds of the table that is used after trying to grow. -/
theorem grow_keeps
    {P : Hashtable δ → Prop}
    (sized : Sized s.capacity)
    (here : P s)
    (grows : ∀ grown, Grown s grown → P grown)
    (allocated : Bool) :
    P ((cliHashtabGrow allocated s).getD s) := by
  cases allocated with
  | false =>
    rw [cliHashtabGrow_false]
    exact here
  | true =>
    obtain ⟨grown, returned, isGrown⟩ := cliHashtabGrow_spec sized
    rw [returned]
    exact grows grown isGrown

theorem growIfFull_keeps
    {P : Hashtable δ → Prop}
    {memory : Memory}
    (here : P s)
    (grow : ∀ allocated, P ((cliHashtabGrow allocated s).getD s)) :
    P (growIfFull memory s) := by
  rw [growIfFull]
  split_ifs
  · exact grow _
  · exact here

variable {grown : Hashtable δ} (isGrown : Grown s grown)

include isGrown

theorem Grown.sized : Sized grown.capacity :=
  isGrown.capacity ▸ sized_nearestPower _

theorem Grown.used_le : grown.used ≤ (taken s.htable s.capacity).card := by
  have count := isGrown.moved.count
  have listed : ((range s.capacity).filter (fun i => !(s.htable i).isEmpty)).toFinset =
      taken s.htable s.capacity := by
    ext idx
    rw [mem_toFinset, mem_filter, mem_range, Bool.not_eq_true', taken,
      Finset.mem_filter, Finset.mem_range]
  rw [zero_add, ← toFinset_card_of_nodup (nodup_range.filter _), listed] at count
  exact count

/-- A grown table has room. -/
theorem Grown.room
    (sized : Sized s.capacity) :
    (taken grown.htable grown.capacity).card < grown.capacity := by
  have larger := sized.double_le
  have positive := sized.le
  have few := isGrown.used_le.trans (taken_card_le s.htable s.capacity)
  rw [isGrown.moved.filling.count, isGrown.capacity]
  omega

/-- It stores what the old one held within its capacity. -/
theorem Grown.stored_iff
    (key : List UInt8)
    (data : δ) :
    Stored grown.htable key data ↔ ∃ i < s.capacity, s.htable i = .full key data := by
  rw [isGrown.moved.stored]
  constructor
  · rintro (⟨_, element⟩ | ⟨i, isMember, element⟩)
    · exact nomatch element
    · exact ⟨i, mem_range.mp isMember, element⟩
  · exact fun ⟨i, inside, element⟩ => .inr ⟨i, mem_range.mpr inside, element⟩

end LibClamav.Hashtab
