import LibClamav.HashtabInsert

namespace LibClamav.Hashtab

open Probing List Option

/-!
# What a search finds

Keys whose stored copy equals the key are found where they were put, as long as
nothing is deleted: every element stands on the path of its key with no unused
slot before it, and insertions and growths keep it so.
-/

variable {growths tries : Nat} {deletedElement result : Option Nat}

variable {δ : Type}

section

/-- A key that `strncpy` copies as it is: no byte but NUL stands behind a NUL. -/
def Plain (key : List UInt8) : Prop := strncpy key = key

variable {key : List UInt8}

/-- A key without a null byte is plain. -/
theorem plain_of_nulFree (nulFree : 0 ∉ key) : Plain key := by
  induction key with
  | nil => rfl
  | cons byte rest ih =>
    have notNul : byte ≠ 0 := fun isNul => nulFree (isNul ▸ mem_cons_self)
    rw [Plain, strncpy, if_neg notNul, ih fun inRest => nulFree (mem_cons_of_mem _ inRest)]

theorem plain_cons_iff
    {byte : UInt8}
    {rest : List UInt8} :
    Plain (byte :: rest) ↔
      if byte = 0 then rest = replicate rest.length 0 else Plain rest := by
  rw [Plain, strncpy]
  split_ifs with isNul
  · rw [cons_inj_right, map_const', eq_comm]
  · rw [cons_inj_right, Plain]

theorem strncmpEq_self (key : List UInt8) : strncmpEq key key = true := by
  induction key with
  | nil => rfl
  | cons byte rest ih => rw [strncmpEq, ih, beq_self_eq_true, Bool.or_true, Bool.and_true]

variable {stored : List UInt8}

/-- `strncmp` tells plain keys of one length apart. -/
theorem eq_of_strncmpEq
    (plain : Plain key ∧ Plain stored ∨ 0 ∉ stored)
    (sameLength : key.length = stored.length)
    (same : strncmpEq key stored = true) :
    key = stored := by
  induction key generalizing stored with
  | nil => exact (length_eq_zero_iff.mp sameLength.symm).symm
  | cons byte rest ih =>
    cases stored with
    | nil => exact nomatch sameLength
    | cons other others =>
      have restLength : rest.length = others.length := Nat.succ.inj sameLength
      rw [strncmpEq, Bool.and_eq_true, Bool.or_eq_true, beq_iff_eq, beq_iff_eq] at same
      obtain ⟨rfl, nulOrSame⟩ := same
      rcases plain with ⟨plainKey, plainStored⟩ | nulFree
      · rw [plain_cons_iff] at plainKey plainStored
        split_ifs at plainKey plainStored with isNul
        · rw [plainKey, plainStored, restLength]
        · rw [ih (.inl ⟨plainKey, plainStored⟩) restLength (nulOrSame.resolve_left isNul)]
      · rw [mem_cons, not_or] at nulFree
        rw [ih (.inr nulFree.2) restLength (nulOrSame.resolve_left (Ne.symm nulFree.1))]

theorem sameKey_self (key : List UInt8) : sameKey key key = true := by
  rw [sameKey, strncmpEq_self, beq_self_eq_true]
  rfl

/-- The comparison of the code is equality of plain keys. -/
theorem sameKey_iff
    (plainKey : Plain key)
    (plainStored : Plain stored) :
    sameKey key stored = true ↔ key = stored := by
  constructor
  · intro same
    rw [sameKey, Bool.and_eq_true, beq_iff_eq] at same
    exact eq_of_strncmpEq (.inl ⟨plainKey, plainStored⟩) same.1 same.2
  · rintro rfl
    exact sameKey_self key

end

section

/-- An element holds a key. -/
def Hashtable.Holds (s : Hashtable δ) (idx : Nat) (key : List UInt8) : Prop :=
  ∃ data, s.htable idx = .full key data

/-- Every key of an array of elements stands where a search for it ends. -/
def PlacedIn (capacity : Nat) (htable : Nat → Element δ) : Prop :=
  Placed (path capacity) capacity (fun idx => htable idx = .empty)
    (fun idx key => ∃ data, htable idx = .full key data)

/-- What insertions keep true of a table from which nothing is deleted. -/
structure Keeps (s : Hashtable δ) : Prop where
  sized : Sized s.capacity
  placed : PlacedIn s.capacity s.htable
  plain : ∀ {idx key}, s.Holds idx key → Plain key
  notBuried : ∀ idx, ¬ s.Buried idx

variable {s : Hashtable δ} {key : List UInt8}

/-- An element matches a plain key exactly if it holds it. -/
theorem Keeps.matches_iff
    (keeps : Keeps s)
    (plainKey : Plain key)
    (idx : Nat) :
    s.Matches idx key ↔ s.Holds idx key := by
  constructor
  · rintro ⟨stored, data, element, same⟩
    rw [(sameKey_iff plainKey (keeps.plain ⟨data, element⟩)).mp same]
    exact ⟨data, element⟩
  · rintro ⟨data, element⟩
    exact ⟨key, data, element, sameKey_self key⟩

/-- So the search stops where it would by equality. -/
theorem Keeps.stopsAt_iff
    (keeps : Keeps s)
    (plainKey : Plain key)
    (moves : Nat) :
    StopsAt (path s.capacity) s.Free s.Matches key moves ↔
      StopsAt (path s.capacity) s.Free s.Holds key moves := by
  have same := fun idx => keeps.matches_iff plainKey idx
  constructor
  · exact fun stops => ⟨stops.here.imp id (same _).mp, stops.notFree,
      fun earlier before held => stops.notHeld earlier before ((same _).mpr held)⟩
  · exact fun stops => ⟨stops.here.imp id (same _).mpr, stops.notFree,
      fun earlier before found => stops.notHeld earlier before ((same _).mp found)⟩

/-- A key is stored with one value. -/
theorem Keeps.stored_unique
    (keeps : Keeps s)
    {data found : δ}
    (first : Stored s.htable key data)
    (second : Stored s.htable key found) :
    data = found := by
  obtain ⟨idx, element⟩ := first
  obtain ⟨slot, other⟩ := second
  rw [keeps.placed.once ⟨data, element⟩ ⟨found, other⟩, other] at element
  exact (Element.full.inj element).2.symm

/-- `cli_hashtab_find` finds the element that holds a key. -/
theorem Keeps.find_of_holds
    (keeps : Keeps s)
    {idx : Nat}
    (held : s.Holds idx key) :
    cliHashtabFind s key = some idx := by
  have plainKey := keeps.plain held
  obtain ⟨moves, inside, rfl, stops⟩ := keeps.placed.stopsAt_of_holds held
  have stopsMatching := (keeps.stopsAt_iff plainKey moves).mpr stops
  exact (cliHashtabFind_of_stopsAt keeps.sized inside stopsMatching).2
    ((keeps.matches_iff plainKey _).mpr held)

/-- It finds nothing if no element matches. -/
theorem cliHashtabFind_none
    (sized : Sized s.capacity)
    (differs : ∀ idx, ¬ s.Matches idx key) :
    cliHashtabFind s key = none := by
  by_cases reached : ∃ moves < s.capacity, s.Free (path s.capacity key moves)
  · obtain ⟨moves, inside, isFree⟩ := reached
    obtain ⟨stop, notLater, stops⟩ :
        ∃ stop ≤ moves, StopsAt (path s.capacity) s.Free s.Matches key stop :=
      exists_stopsAt (.inl isFree)
    exact (cliHashtabFind_of_stopsAt sized (lt_of_le_of_lt notLater inside) stops).1
      (stops.here.resolve_right (differs _))
  · exact cliHashtabFind_of_full sized
      (fun moves inside isFree => reached ⟨moves, inside, isFree⟩) (fun _ _ => differs _)

/-- The data that is found is the data that is stored. -/
theorem Keeps.find_data_iff
    (keeps : Keeps s)
    (plainKey : Plain key)
    (data : δ) :
    (cliHashtabFind s key).bind s.data? = some data ↔ Stored s.htable key data := by
  constructor
  · intro found
    by_cases exact : ∃ idx, s.Holds idx key
    · obtain ⟨idx, other, element⟩ := exact
      rw [keeps.find_of_holds ⟨other, element⟩, bind_some, Hashtable.data?, element] at found
      exact ⟨idx, some.inj found ▸ element⟩
    have nothing : cliHashtabFind s key = none := cliHashtabFind_none keeps.sized fun idx found =>
        exact ⟨idx, (keeps.matches_iff plainKey idx).mp found⟩
    rw [nothing] at found
    exact nomatch found
  · rintro ⟨idx, element⟩
    rw [keeps.find_of_holds ⟨data, element⟩, bind_some, Hashtable.data?, element]

end

section

variable {s : Hashtable δ} {key : List UInt8} {data : δ} {capacity : Nat} {htable : Nat → Element δ}

/-- A key in the first free place of its path is placed. -/
theorem PlacedIn.update
    {moves : Nat}
    (placed : PlacedIn capacity htable)
    (inside : moves < capacity)
    (isFree : htable (path capacity key moves) = .empty)
    (before : ∀ earlier < moves, htable (path capacity key earlier) ≠ .empty)
    (absent : ∀ idx data, htable idx ≠ .full key data) :
    PlacedIn capacity (Function.update htable (path capacity key moves) (.full key data)) := by
  have stops : StopsAt (path capacity) (fun idx => htable idx = .empty)
      (fun idx key => ∃ data, htable idx = .full key data) key moves :=
    ⟨.inl isFree, before, fun _ _ ⟨data, element⟩ => absent _ data element⟩
  refine (Placed.congr (fun idx => ?_) fun idx other => ?_).mpr (placed.store inside stops isFree)
  · by_cases same : idx = path capacity key moves
    · simp [same]
    · simp [same]
  · by_cases same : idx = path capacity key moves
    · simp [same, isFree, eq_comm]
    · simp [same]

/-- A new key keeps the invariant. -/
theorem Keeps.place
    (keeps : Keeps s)
    (plainKey : Plain key)
    {idx : Nat}
    (ends : Ends s key (.place idx)) :
    Keeps (s.place idx key data) ∧ s.Free idx ∧ ∀ other, ¬ s.Holds other key := by
  cases ends with
  | @place moves inside stops isFree =>
    have stopsHolding : StopsAt (path s.capacity) s.Free s.Holds key moves := by
      refine (keeps.stopsAt_iff plainKey moves).mp ⟨.inl isFree, ?_, stops.notHeld⟩
      exact fun earlier before free => stops.notFree earlier before (.inl free)
    have absent := keeps.placed.absent_of_free stopsHolding isFree
    refine ⟨⟨keeps.sized, ?_, ?_, ?_⟩, isFree, absent⟩
    · rw [Hashtable.place, show strncpy key = key from plainKey]
      exact keeps.placed.update inside isFree stopsHolding.notFree
        (fun other found element => absent other ⟨found, element⟩)
    · rintro other stored ⟨found, element⟩
      rcases eq_of_update_full element with ⟨_, rfl, _⟩ | ⟨_, old⟩
      · rw [show strncpy key = key from plainKey]
        exact plainKey
      · exact keeps.plain ⟨found, old⟩
    · exact update_full_not_deleted keeps.notBuried _ _ _

variable {idx : Nat} {old : δ}

theorem Hashtable.update_full
    {stored : List UInt8}
    (element : s.htable idx = .full stored old) :
    s.update idx data = { s with htable := Function.update s.htable idx (.full stored data) } := by
  rw [Hashtable.update, element]

/-- New data for a key keeps the invariant. -/
theorem Keeps.update
    (keeps : Keeps s)
    (element : s.htable idx = .full key old) :
    Keeps (s.update idx data) := by
  have sameFree (other : Nat) :
      Function.update s.htable idx (.full key data) other = .empty ↔ s.htable other = .empty := by
    by_cases same : other = idx
    · simp [same, element]
    · simp [same]
  have sameHeld (other : Nat) (stored : List UInt8) :
      (∃ found, Function.update s.htable idx (.full key data) other = .full stored found) ↔
        ∃ found, s.htable other = .full stored found := by
    by_cases same : other = idx
    · simp [same, element]
    · simp [same]
  rw [Hashtable.update_full element]
  refine ⟨keeps.sized, (Placed.congr sameFree sameHeld).mpr keeps.placed, ?_, ?_⟩
  · exact fun held => keeps.plain ((sameHeld _ _).mp held)
  · exact update_full_not_deleted keeps.notBuried _ _ _

/-- Moving the elements to the larger table places them all. -/
theorem placedIn_of_foldlM
    {newCapacity : Nat}
    (sized : Sized newCapacity)
    {old : Nat → Element δ}
    (distinct : ∀ {i j key data found}, old i = .full key data → old j = .full key found → i = j)
    (indices : List Nat)
    (grown filled : (Nat → Element δ) × Nat)
    (nodup : indices.Nodup)
    (filling : Filling newCapacity grown)
    (enough : grown.2 + indices.length ≤ newCapacity)
    (placed : PlacedIn newCapacity grown.1)
    (absent : ∀ i ∈ indices, ∀ key data, old i = .full key data →
      ∀ idx found, grown.1 idx ≠ .full key found)
    (folded : indices.foldlM (fun grown i => rehashElement newCapacity grown (old i)) grown =
      some filled) :
    PlacedIn newCapacity filled.1 := by
  induction indices generalizing grown filled with
  | nil =>
    exact some.inj folded ▸ placed
  | cons i rest ih =>
    rw [length_cons] at enough
    rw [nodup_cons] at nodup
    have absentRest := fun j (inRest : j ∈ rest) => absent j (mem_cons_of_mem _ inRest)
    cases element : old i with
    | empty | deleted =>
      rw [foldlM_cons, element] at folded
      exact ih grown filled nodup.2 filling (by omega) placed absentRest folded
    | full key data =>
      have room : (taken grown.1 newCapacity).card < newCapacity := by
        rw [filling.count]
        omega
      obtain ⟨moves, inside, isFree, before, rehashed⟩ := rehashElement_full sized room key data
      rw [foldlM_cons, element, rehashed] at folded
      refine ih _ filled nodup.2 (filling.update (sized.path_lt key moves) isFree key data)
        (by dsimp only; omega)
        (placed.update inside isFree before (absent i mem_cons_self key data element))
        ?_ folded
      intro j inRest other otherData full idx found stored
      rcases eq_of_update_full stored with ⟨_, rfl, _⟩ | ⟨_, before⟩
      · exact nodup.1 (distinct element full ▸ inRest)
      · exact absentRest j inRest other otherData full idx found before

theorem placedIn_empty (capacity : Nat) : PlacedIn capacity (fun _ => (.empty : Element δ)) :=
  ⟨fun ⟨_, element⟩ => (nomatch element), fun ⟨_, element⟩ => (nomatch element),
    fun ⟨_, element⟩ => (nomatch element), fun ⟨_, element⟩ => (nomatch element)⟩

/-- A grown table keeps the invariant. -/
theorem Keeps.grown
    (keeps : Keeps s)
    {grown : Hashtable δ}
    (isGrown : Grown s grown) :
    Keeps grown := by
  have larger := keeps.sized.double_le
  have start : Filling grown.capacity (fun _ => (.empty : Element δ), 0) :=
    ⟨congrArg Finset.card (taken_empty _), nofun⟩
  have distinct {i j : Nat} {key : List UInt8} {data found : δ}
      (first : s.htable i = .full key data) (second : s.htable j = .full key found) : i = j :=
    keeps.placed.once ⟨data, first⟩ ⟨found, second⟩
  refine ⟨isGrown.sized, ?_, ?_, isGrown.notBuried⟩
  · refine placedIn_of_foldlM isGrown.sized distinct (range s.capacity) _ _
      nodup_range start ?_ (placedIn_empty _) nofun
      isGrown.moved.folded
    rw [length_range, isGrown.capacity]
    omega
  · rintro idx key ⟨data, element⟩
    obtain ⟨i, _, old⟩ := (isGrown.stored_iff key data).mp ⟨idx, element⟩
    exact keeps.plain ⟨data, old⟩

theorem Keeps.lt_capacity
    (keeps : Keeps s)
    (held : s.Holds idx key) :
    idx < s.capacity := by
  obtain ⟨moves, _, rfl, _⟩ := keeps.placed.spot held
  exact keeps.sized.path_lt key moves

/-- Growing keeps what is stored. -/
theorem Keeps.stored_grown_iff
    (keeps : Keeps s)
    {grown : Hashtable δ}
    (isGrown : Grown s grown)
    (key : List UInt8)
    (data : δ) :
    Stored grown.htable key data ↔ Stored s.htable key data := by
  rw [isGrown.stored_iff]
  exact ⟨fun ⟨i, _, element⟩ => ⟨i, element⟩,
    fun ⟨i, element⟩ => ⟨i, keeps.lt_capacity ⟨data, element⟩, element⟩⟩

/-- The data of one key is set, all other keys keep theirs. -/
def Sets
    (before : Hashtable δ)
    (key : List UInt8)
    (data : δ)
    (after : Hashtable δ) :
    Prop :=
  ∀ other found, Stored after.htable other found ↔
    if other = key then found = data else Stored before.htable other found

/-- A new key is set to its data. -/
theorem place_sets
    (plainKey : Plain key)
    (isFree : s.Free idx)
    (absent : ∀ other, ¬ s.Holds other key) :
    Sets s key data (s.place idx key data) := by
  intro other found
  rw [Hashtable.place, show strncpy key = key from plainKey, stored_update_iff isFree]
  split_ifs with same
  · rw [same]
    have notStored : ¬ Stored s.htable key found := by
      rintro ⟨slot, old⟩
      exact absent slot ⟨found, old⟩
    exact ⟨fun either => (either.resolve_left notStored).2, fun isData => .inr ⟨rfl, isData⟩⟩
  · exact ⟨fun either => either.resolve_right fun both => same both.1, .inl⟩

/-- A stored key is set to its new data. -/
theorem Keeps.update_sets
    (keeps : Keeps s)
    (element : s.htable idx = .full key old) :
    Sets s key data (s.update idx data) := by
  intro other found
  rw [Hashtable.update_full element]
  constructor
  · rintro ⟨slot, full⟩
    rcases eq_of_update_full full with ⟨_, rfl, rfl⟩ | ⟨differs, before⟩
    · rw [if_pos rfl]
    have isOther : other ≠ key := by
      rintro rfl
      exact differs (keeps.placed.once ⟨found, before⟩ ⟨old, element⟩)
    rw [if_neg isOther]
    exact ⟨slot, before⟩
  split_ifs with same
  · rintro rfl
    rw [same]
    exact ⟨idx, Function.update_self _ _ _⟩
  rintro ⟨slot, before⟩
  have differs : slot ≠ idx := by
    rintro rfl
    exact same (keeps.placed.single ⟨found, before⟩ ⟨old, element⟩)
  exact ⟨slot, (Function.update_of_ne differs _ _).trans before⟩

/-- A growth, granted or not, keeps what is stored. -/
theorem Keeps.grow
    (keeps : Keeps s)
    (allocated : Bool) :
    Keeps ((cliHashtabGrow allocated s).getD s) ∧
      ∀ other found, Stored ((cliHashtabGrow allocated s).getD s).htable other found ↔
        Stored s.htable other found :=
  grow_keeps (P := fun after => Keeps after ∧ ∀ other found, Stored after.htable other found ↔
      Stored s.htable other found) keeps.sized ⟨keeps, fun _ _ => Iff.rfl⟩
    (fun _ isGrown => ⟨keeps.grown isGrown, keeps.stored_grown_iff isGrown⟩) allocated

variable {after : Hashtable δ}

theorem Sets.of_same
    {before : Hashtable δ}
    (sets : Sets before key data after)
    (same : ∀ other found, Stored before.htable other found ↔ Stored s.htable other found) :
    Sets s key data after := by
  intro other found
  refine (sets other found).trans ?_
  split_ifs
  · exact Iff.rfl
  · exact same other found

/-- The growth before an insertion keeps what is stored. -/
theorem Keeps.growIfFull
    (keeps : Keeps s)
    (memory : Memory) :
    Keeps (growIfFull memory s) ∧ ∀ other found,
      Stored (growIfFull memory s).htable other found ↔ Stored s.htable other found :=
  growIfFull_keeps (P := fun after => Keeps after ∧ ∀ other found,
      Stored after.htable other found ↔ Stored s.htable other found)
    ⟨keeps, fun _ _ => Iff.rfl⟩ keeps.grow

variable {memory : Memory}

/-- What an insertion that returned has done to the keys of a table. -/
def Inserted
    (before : Hashtable δ)
    (key : List UInt8)
    (data : δ)
    (after : Hashtable δ)
    (result : Option Nat) :
    Prop :=
  result.isSome = true ∧ Sets before key data after ∨
    result = none ∧ ∀ other found, Stored after.htable other found ↔
      Stored before.htable other found

theorem Inserted.of_same
    {before : Hashtable δ}
    (inserted : Inserted before key data after result)
    (same : ∀ other found, Stored before.htable other found ↔ Stored s.htable other found) :
    Inserted s key data after result := by
  refine inserted.imp ?_ ?_
  · exact And.imp_right fun sets => sets.of_same same
  · exact And.imp_right fun unchanged other found =>
      (unchanged other found).trans (same other found)

/-- A key that is stored on its own path is kept. -/
theorem Keeps.inserted_place
    (keeps : Keeps s)
    (plainKey : Plain key)
    (ends : Ends s key (.place idx)) :
    Keeps (s.place idx key data) ∧ Inserted s key data (s.place idx key data) (some idx) := by
  obtain ⟨kept, isFree, absent⟩ := keeps.place plainKey ends
  exact ⟨kept, .inl ⟨rfl, place_sets plainKey isFree absent⟩⟩

/-- With an unused element at the hash, the key is stored there after any number of tries. -/
theorem Inserts.keeps_of_free
    (inserts : Inserts memory key data growths tries none s after result)
    (keeps : Keeps s)
    (plainKey : Plain key)
    (isFree : s.Free (hash key s.capacity)) :
    Keeps after ∧ Inserted s key data after result := by
  have only {ended : Probe} (probes : Probes s key tries none ended) :
      ended = .place (hash key s.capacity) := by
    obtain ⟨rounds, returned⟩ := probes
    obtain ⟨fewer, atHash⟩ := probes_of_free isFree tries
    have both := insertProbe_le (Nat.le_add_left fewer rounds) atHash
    rw [insertProbe_le (Nat.le_add_right rounds fewer) returned] at both
    exact Option.some.inj both
  have ends : Ends s key (.place (hash key s.capacity)) :=
    @Ends.place δ s key 0 (lt_of_lt_of_le (by decide) keeps.sized.le)
      ⟨.inl (.inl isFree), nofun, nofun⟩ isFree
  cases inserts with
  | place probes _ =>
    cases only probes
    exact keeps.inserted_place plainKey ends
  | noMemory _ _ => exact ⟨keeps, .inr ⟨rfl, fun _ _ => Iff.rfl⟩⟩
  | update probes | grow probes _ => exact nomatch only probes

/-- A table without room that grows with an unused element at the hash. -/
theorem Inserts.keeps_of_tired
    (inserts : Inserts memory key data growths tries deletedElement s after result)
    (keeps : Keeps s)
    (plainKey : Plain key)
    (noRoom : NoRoom s key)
    (placeable : FreeAfterGrowth s key)
    (nothingNoted : deletedElement = none)
    (tired : s.capacity ≤ tries) :
    Keeps after ∧ Inserted s key data after result := by
  induction inserts with
  | place probes _ | noMemory probes _ | update probes =>
    subst nothingNoted
    exact nomatch noRoom.probes keeps.sized tired probes
  | @grow growths tries more deletedElement noted s after result probes rest inductionHypothesis =>
    subst nothingNoted
    cases noRoom.probes keeps.sized tired probes
    cases now : memory.table growths with
    | true =>
      obtain ⟨grown, returned, isFree⟩ := placeable
      obtain ⟨keepsGrown, same⟩ := keeps.grow true
      rw [now] at rest
      rw [returned] at rest keepsGrown same
      obtain ⟨kept, inserted⟩ := rest.keeps_of_free keepsGrown plainKey isFree
      exact ⟨kept, inserted.of_same same⟩
    | false =>
      rw [now, cliHashtabGrow_false] at inductionHypothesis
      exact inductionHypothesis keeps noRoom placeable rfl (Nat.le_succ_of_le tired)

/-- An insertion that stores the key on its path keeps the table in order. -/
theorem Inserts.keeps
    (inserts : Inserts memory key data growths 1 none s after result)
    (keeps : Keeps s)
    (plainKey : Plain key)
    (placeable : NoRoom s key → FreeAfterGrowth s key) :
    Keeps after ∧ Inserted s key data after result := by
  cases inserts with
  | place probes _ => exact keeps.inserted_place plainKey (probes.ends keeps.sized)
  | noMemory _ _ => exact ⟨keeps, .inr ⟨rfl, fun _ _ => Iff.rfl⟩⟩
  | update probes =>
    cases probes.ends keeps.sized with
    | update _ _ found =>
      obtain ⟨old, element⟩ := (keeps.matches_iff plainKey _).mp found
      exact ⟨keeps.update element, .inl ⟨rfl, keeps.update_sets element⟩⟩
  | grow probes rest =>
    obtain ⟨rfl, rfl, noRoom⟩ := (ends_exhausted_iff keeps.sized).mp (probes.ends keeps.sized)
    cases now : memory.table growths with
    | true =>
      obtain ⟨grown, returned, isFree⟩ := placeable noRoom
      obtain ⟨keepsGrown, same⟩ := keeps.grow true
      rw [now] at rest
      rw [returned] at rest keepsGrown same
      obtain ⟨kept, inserted⟩ := rest.keeps_of_free keepsGrown plainKey isFree
      exact ⟨kept, inserted.of_same same⟩
    | false =>
      rw [now, cliHashtabGrow_false] at rest
      exact rest.keeps_of_tired keeps plainKey noRoom (placeable noRoom) rfl
        (Nat.le_succ s.capacity)

/--
The new key gets an element on its own path: there is room, or the table grows before the
search, or the first growth of the loop leaves the element at the hash unused.
-/
def Placeable (memory : Memory) (s : Hashtable δ) (key : List UInt8) : Prop :=
  NoRoom s key → s.used > s.maxfill ∧ memory.table 0 = true ∨ FreeAfterGrowth s key

theorem Placeable.growIfFull
    (placeable : Placeable memory s key)
    (sized : Sized s.capacity)
    (noRoom : NoRoom (growIfFull memory s) key) :
    FreeAfterGrowth (growIfFull memory s) key := by
  rcases growIfFull_cases memory sized with ⟨_, _, isGrown⟩ | ⟨grows, first⟩
  · exact absurd noRoom (not_noRoom_of_taken_lt (isGrown.room sized))
  · rw [first] at noRoom ⊢
    exact (placeable noRoom).resolve_left grows

/-- An insertion that returned keeps every key where a search finds it. -/
theorem Keeps.of_insert
    {fuel : Nat}
    (keeps : Keeps s)
    (plainKey : Plain key)
    (placeable : Placeable memory s key)
    (returned : cliHashtabInsert memory fuel s key data = some (after, result)) :
    Keeps after ∧ Inserted s key data after result := by
  obtain ⟨keepsFirst, same⟩ := keeps.growIfFull memory
  have inserts := (exists_fuel_iff_inserts after result).mp ⟨fuel, returned⟩
  obtain ⟨keepsAfter, inserted⟩ :=
    inserts.keeps keepsFirst plainKey (placeable.growIfFull keeps.sized)
  exact ⟨keepsAfter, inserted.of_same same⟩

/-- With memory for two growths an insertion into a table without deleted elements returns. -/
theorem Keeps.insert_returns
    (keeps : Keeps s)
    (granted : memory.table 1 = true)
    (grantedAgain : memory.table 2 = true) :
    ∃ fuel after result, cliHashtabInsert memory fuel s key data = some (after, result) := by
  obtain ⟨keepsFirst, _⟩ := keeps.growIfFull memory
  have notMet : ¬ MeetsBuried (Hashtab.growIfFull memory s) key :=
    fun ⟨_, _, _, buried⟩ => keepsFirst.notBuried _ buried
  obtain ⟨after, result, inserts⟩ : ∃ after result,
      Inserts memory key data 1 1 none (Hashtab.growIfFull memory s) after result :=
    (inserts_or_noRoom keepsFirst.sized notMet 1).elim id fun noRoom =>
      noRoom.inserts keepsFirst.sized 1 granted (.inr grantedAgain)
  obtain ⟨fuel, returned⟩ := (exists_fuel_iff_inserts after result).mpr inserts
  exact ⟨fuel, after, result, returned⟩

end

section

variable {s : Hashtable δ} {key : List UInt8} {data : δ}

/-- The fill of a table whose growths succeed. -/
structure Counted (s : Hashtable δ) : Prop where
  count : (taken s.htable s.capacity).card = s.used
  maxfill : s.maxfill = 8 * s.capacity / 10
  used_le : s.used ≤ s.maxfill + 1

/-- It leaves fewer elements than the table may have. -/
theorem Counted.growIfFull
    (counted : Counted s)
    (sized : Sized s.capacity) :
    Counted (growIfFull grantAll s) ∧
      (growIfFull grantAll s).used ≤ (growIfFull grantAll s).maxfill := by
  rw [Hashtab.growIfFull]
  split_ifs with full
  · obtain ⟨grown, returned, isGrown⟩ := cliHashtabGrow_spec sized
    have larger := sized.double_le
    have positive := sized.le
    have few := isGrown.used_le
    rw [counted.count] at few
    have bound := counted.used_le
    have fill := counted.maxfill
    have room : grown.used ≤ grown.maxfill := by
      rw [isGrown.maxfill, isGrown.capacity]
      omega
    rw [show grantAll.table 0 = true from rfl, returned]
    have fillGrown : grown.maxfill = 8 * grown.capacity / 10 := by rw [isGrown.maxfill, mul_comm]
    exact ⟨⟨isGrown.moved.filling.count, fillGrown, Nat.le_succ_of_le room⟩, room⟩
  · exact ⟨counted, not_lt.mp full⟩

/-- Such a table has a free place. -/
theorem Counted.room
    (counted : Counted s)
    (sized : Sized s.capacity)
    (few : s.used ≤ s.maxfill) :
    (taken s.htable s.capacity).card < s.capacity := by
  have positive := sized.le
  have fill := counted.maxfill
  rw [counted.count]
  omega

/-- With room left, an insertion ends in its first round and counts its element. -/
theorem Inserts.counted
    {after : Hashtable δ}
    (inserts : Inserts grantAll key data growths 1 none s after result)
    (counted : Counted s)
    (sized : Sized s.capacity)
    (few : s.used ≤ s.maxfill) :
    result.isSome = true ∧ Counted after := by
  cases inserts with
  | place probes _ =>
    cases probes.ends sized with
    | @place moves _ _ isFree =>
      have used : Element.full (strncpy key) data ≠ .empty := nofun
      refine ⟨rfl, ?_, counted.maxfill, Nat.succ_le_succ few⟩
      exact (taken_update_card (sized.path_lt key moves) isFree used).trans
        (congrArg (· + 1) counted.count)
  | noMemory _ failed => exact nomatch failed
  | update probes =>
    cases probes.ends sized with
    | update _ _ found =>
      obtain ⟨stored, old, element, _⟩ := found
      have inUse : s.htable _ ≠ .empty := fun isEmpty => nomatch element.symm.trans isEmpty
      have used : Element.full stored data ≠ .empty := nofun
      rw [Hashtable.update_full element]
      refine ⟨rfl, ?_, counted.maxfill, counted.used_le⟩
      exact (congrArg Finset.card (taken_update_eq inUse used s.capacity)).trans counted.count
  | grow probes _ =>
    obtain ⟨_, _, noRoom⟩ := (ends_exhausted_iff sized).mp (probes.ends sized)
    exact absurd noRoom (not_noRoom_of_taken_lt (counted.room sized few))

/-- Insert keys with their data, in order, while all allocations succeed. -/
def insertAll
    (fuel : Nat)
    (s : Hashtable δ)
    (inserted : List (List UInt8 × δ)) :
    Option (Hashtable δ) :=
  inserted.foldlM (fun s entry => (cliHashtabInsert grantAll fuel s entry.1 entry.2).map Prod.fst) s

/-- The data of the last insertion of a key. -/
def lastInserted (key : List UInt8) : List (List UInt8 × δ) → Option δ
  | [] => none
  | (inserted, data) :: rest =>
    match lastInserted key rest with
    | some later => some later
    | none => if inserted = key then some data else none

/-- An insertion ends, keeps the invariant and sets its key. -/
theorem Keeps.insert
    (keeps : Keeps s)
    (counted : Counted s)
    (plainKey : Plain key)
    (data : δ) :
    ∃ bound after, (∀ fuel ≥ bound,
        (cliHashtabInsert grantAll fuel s key data).map Prod.fst = some after) ∧
      Keeps after ∧ Counted after ∧ Sets s key data after := by
  obtain ⟨countedFirst, few⟩ := counted.growIfFull keeps.sized
  obtain ⟨keepsFirst, same⟩ := keeps.growIfFull grantAll
  obtain ⟨after, result, inserts⟩ : ∃ after result,
      Inserts grantAll key data 1 1 none (Hashtab.growIfFull grantAll s) after result :=
    inserts_of_room (countedFirst.room keepsFirst.sized few) keepsFirst.sized keepsFirst.notBuried 1
  obtain ⟨isElement, countedAfter⟩ := inserts.counted countedFirst keepsFirst.sized few
  have room := countedFirst.room keepsFirst.sized few
  obtain ⟨keepsAfter, ⟨_, sets⟩ | ⟨isNull, _⟩⟩ :=
    inserts.keeps keepsFirst plainKey fun noRoom => absurd noRoom (not_noRoom_of_taken_lt room)
  · obtain ⟨bound, returned⟩ := inserts.insertLoop_eq
    refine ⟨bound, after, fun fuel enough => ?_, keepsAfter, countedAfter, sets.of_same same⟩
    rw [cliHashtabInsert, returned fuel enough fuel enough]
    rfl
  · rw [isNull] at isElement
    cases isElement

/-- After any insertions the last one of each key is stored. -/
theorem Keeps.insertAll
    (inserted : List (List UInt8 × δ)) :
    ∀ s : Hashtable δ, Keeps s → Counted s → (∀ entry ∈ inserted, Plain entry.1) →
      ∃ bound after, (∀ fuel ≥ bound, Hashtab.insertAll fuel s inserted = some after) ∧
        Keeps after ∧ ∀ key data, Stored after.htable key data ↔
          match lastInserted key inserted with
          | some last => data = last
          | none => Stored s.htable key data := by
  induction inserted with
  | nil => exact fun s keeps _ _ => ⟨0, s, fun _ _ => rfl, keeps, fun _ _ => Iff.rfl⟩
  | cons entry rest ih =>
    intro s keeps counted plain
    obtain ⟨boundFirst, middle, returnedFirst, keepsMiddle, countedMiddle, sets⟩ :=
      keeps.insert counted (plain entry mem_cons_self) entry.2
    obtain ⟨boundRest, after, returnedRest, keepsAfter, stored⟩ :=
      ih middle keepsMiddle countedMiddle
        (fun other inRest => plain other (mem_cons_of_mem _ inRest))
    refine ⟨max boundFirst boundRest, after, fun fuel enough => ?_, keepsAfter, fun key data => ?_⟩
    · rw [Hashtab.insertAll, foldlM_cons, returnedFirst fuel (le_trans (le_max_left _ _) enough)]
      exact returnedRest fuel (le_trans (le_max_right _ _) enough)
    rw [stored, lastInserted]
    cases lastInserted key rest with
    | some later => exact Iff.rfl
    | none =>
      rw [sets]
      by_cases same : entry.1 = key
      · rw [if_pos same, if_pos same.symm]
      · rw [if_neg same, if_neg fun isKey => same isKey.symm]

/-- The three loops try the slots of one path, in order, and the path meets every slot. -/
structure ProbesPath (s : Hashtable δ) (key : List UInt8) : Prop where
  find : ∀ moves left, ¬ s.Free (path s.capacity key moves) →
    ¬ s.Matches (path s.capacity key moves) key →
    findLoop s key (left + 1) (path s.capacity key moves) (moves + 1) =
      findLoop s key left (path s.capacity key (moves + 1)) (moves + 1 + 1)
  insert : ∀ moves rounds deletedElement, moves + 1 < s.capacity →
    ¬ s.Open (path s.capacity key moves) → ¬ s.Matches (path s.capacity key moves) key →
    insertProbe s key (rounds + 1) (path s.capacity key moves) (moves + 1) deletedElement =
      insertProbe s key rounds (path s.capacity key (moves + 1)) (moves + 1 + 1) deletedElement
  grow : ∀ (htable : Nat → Element δ) moves left, htable (path s.capacity key moves) ≠ .empty →
    rehashLoop htable s.capacity (left + 1) (path s.capacity key moves) (moves + 1) =
      rehashLoop htable s.capacity left (path s.capacity key (moves + 1)) (moves + 1 + 1)
  covers : ∀ slot < s.capacity, ∃ moves < s.capacity, path s.capacity key moves = slot

theorem Sized.probesPath
    (sized : Sized s.capacity)
    (key : List UInt8) :
    ProbesPath s key where
  find _ left notFree differs := findLoop_pass sized notFree differs left
  insert _ rounds deletedElement inside notOpen differs :=
    insertProbe_pass inside notOpen differs rounds deletedElement
  grow _ _ left inUse := rehashLoop_pass inUse left
  covers _ inside := sized.exists_path_eq key inside

/-- The last data of a key is one that was inserted. -/
theorem mem_of_lastInserted
    {inserted : List (List UInt8 × δ)}
    (last : lastInserted key inserted = some data) :
    (key, data) ∈ inserted := by
  induction inserted with
  | nil => exact nomatch last
  | cons entry rest ih =>
    rw [lastInserted] at last
    cases later : lastInserted key rest with
    | some found =>
      rw [later] at last ih
      exact mem_cons_of_mem _ (ih last)
    | none =>
      rw [later] at last
      split_ifs at last with same
      rw [← same, ← some.inj last]
      exact mem_cons_self

/-- A search returns the data of the last insertion of a key, across any growths. -/
theorem hashtab_find_last_inserted
    (capacity : Nat)
    (inserted : List (List UInt8 × δ))
    (nulFree : ∀ entry ∈ inserted, 0 ∉ entry.1) :
    ∃ bound after,
      (∀ fuel ≥ bound, insertAll fuel (cliHashtabInit capacity) inserted = some after) ∧
        (∀ key, (cliHashtabFind after key).bind after.data? = lastInserted key inserted) ∧
        (∀ key, (∀ entry ∈ inserted, entry.1 ≠ key) → cliHashtabFind after key = none) ∧
        ∀ key, ProbesPath after key := by
  have start : Keeps (cliHashtabInit capacity : Hashtable δ) :=
    ⟨sized_nearestPower capacity, placedIn_empty _, fun ⟨_, element⟩ => (nomatch element),
      nofun⟩
  have counted : Counted (cliHashtabInit capacity : Hashtable δ) :=
    ⟨congrArg Finset.card (taken_empty _), rfl, Nat.zero_le _⟩
  obtain ⟨bound, after, returned, keeps, stored⟩ :=
    Keeps.insertAll inserted (cliHashtabInit capacity) start counted
      (fun entry isMember => plain_of_nulFree (nulFree entry isMember))
  have exactly (key : List UInt8) (data : δ) :
      Stored after.htable key data ↔ lastInserted key inserted = some data := by
    rw [stored]
    cases lastInserted key inserted with
    | some last => exact ⟨fun same => congrArg some same.symm, fun same => (some.inj same).symm⟩
    | none => exact ⟨fun ⟨_, element⟩ => (nomatch element), nofun⟩
  have fromInserted {idx : Nat} {key : List UInt8} (found : after.Matches idx key) :
      ∃ entry ∈ inserted, entry.1 = key ∧ after.Holds idx key := by
    obtain ⟨held, data, element, same⟩ := found
    have isMember := mem_of_lastInserted ((exactly held data).mp ⟨idx, element⟩)
    rw [sameKey, Bool.and_eq_true, beq_iff_eq] at same
    have isKey : key = held := eq_of_strncmpEq (.inr (nulFree _ isMember)) same.1 same.2
    exact ⟨_, isMember, isKey.symm, data, isKey ▸ element⟩
  have absent (key : List UInt8) (never : ∀ entry ∈ inserted, entry.1 ≠ key) :
      cliHashtabFind after key = none := by
    refine cliHashtabFind_none keeps.sized fun idx found => ?_
    obtain ⟨entry, isMember, isKey, _⟩ := fromInserted found
    exact never entry isMember isKey
  refine ⟨bound, after, returned, fun key => ?_, absent, keeps.sized.probesPath⟩
  by_cases reached : ∃ entry ∈ inserted, entry.1 = key
  · obtain ⟨entry, isMember, rfl⟩ := reached
    refine ext fun data => ?_
    rw [keeps.find_data_iff (plain_of_nulFree (nulFree entry isMember)), exactly]
  rw [absent key fun entry isMember isKey => reached ⟨entry, isMember, isKey⟩]
  cases last : lastInserted key inserted with
  | none => rfl
  | some data => exact absurd ⟨_, mem_of_lastInserted last, rfl⟩ reached

/-- Three insertions, two of one key. -/
theorem hashtab_find_last_of_three :
    ∃ bound after, (∀ fuel ≥ bound, insertAll fuel (cliHashtabInit 16)
        [([97], 1), ([98, 99], 2), ([97], 3)] = some after) ∧
      (cliHashtabFind after [97]).bind after.data? = some 3 := by
  obtain ⟨bound, after, returned, found, _⟩ := hashtab_find_last_inserted 16
    [([97], 1), ([98, 99], 2), ([97], 3)] (by decide)
  exact ⟨bound, after, returned, found [97]⟩

end

variable {s : Hashtable δ}

/--
A cleared table is a fresh one, in which no key is found, exactly if no element
behind the cleared bytes was in use.
-/
theorem hashtab_clear_fresh_iff
    (reachable : Reachable s)
    {requested : Nat}
    (sameCapacity : nearestPower requested = s.capacity)
    (sizeofElement : Nat)
    (freed : List UInt8 → List UInt8) :
    (cliHashtabClear sizeofElement freed s = cliHashtabInit requested ∧
        ∀ key, cliHashtabFind (cliHashtabClear sizeofElement freed s) key = none) ↔
      ∀ i < s.capacity, s.capacity ≤ sizeofElement * i → s.htable i = .empty := by
  constructor
  · rintro ⟨fresh, -⟩ i inside behind
    have slot := congrFun (congrArg Hashtable.htable fresh) i
    simp only [cliHashtabClear, cliHashtabInit, behind, inside, and_self, ↓reduceIte] at slot
    cases element : s.htable i with
    | empty => rfl
    | deleted | full key data => rw [element] at slot; cases slot
  intro unused
  have fresh : cliHashtabClear sizeofElement freed s = cliHashtabInit requested := by
    have slots : (cliHashtabClear sizeofElement freed s).htable = fun _ => .empty := by
      funext i
      simp only [cliHashtabClear]
      split_ifs with behind
      · rw [unused i behind.2 behind.1]
      · rfl
    rw [cliHashtabInit, sameCapacity, ← reachable.shaped.maxfill, ← slots]
    rfl
  rw [fresh]
  refine ⟨rfl, fun key => cliHashtabFind_none (sized_nearestPower requested) ?_⟩
  rintro idx ⟨_, _, element, _⟩
  cases element

/-- A table of 64 elements with the key `d`, which has slot 1. -/
def lowSlotTable : Hashtable Nat := (cliHashtabInit 16).place (hash [100] 64) [100] 7

/-- The slot of the key lies within the 64 bytes that are cleared. -/
theorem hashtab_clear_lowSlotTable :
    cliHashtabFind lowSlotTable [100] = some 1 ∧
      cliHashtabClear 24 id lowSlotTable = cliHashtabInit 16 := by
  have inserted : cliHashtabInsert grantAll 1 (cliHashtabInit 16) [100] 7 =
      some (lowSlotTable, some (hash [100] 64)) := rfl
  have unused : ∀ i < lowSlotTable.capacity, lowSlotTable.capacity ≤ 24 * i →
      lowSlotTable.htable i = .empty := by
    intro i _ behind
    have capacity : lowSlotTable.capacity = 64 := rfl
    have notSlot : i ≠ hash [100] 64 := by
      rw [show hash [100] 64 = 1 by decide]
      omega
    exact Function.update_of_ne notSlot _ _
  have reachable : Reachable lowSlotTable := .insert (.init 16) inserted
  exact ⟨by decide +kernel, ((hashtab_clear_fresh_iff reachable rfl 24 id).mpr unused).1⟩

/--
An element left behind the cleared bytes shows: the insertion of a key that hashes to it does
not do what it does in a fresh table.
-/
theorem hashtab_clear_stale_shows
    (reachable : Reachable s)
    {requested i sizeofElement : Nat}
    (sameCapacity : nearestPower requested = s.capacity)
    (inside : i < s.capacity)
    (behind : s.capacity ≤ sizeofElement * i)
    (stale : s.htable i ≠ .empty)
    {key : List UInt8}
    (atSlot : hash key s.capacity = i)
    (freed : List UInt8 → List UInt8)
    (data : δ)
    (fuel : Nat) :
    cliHashtabInsert grantAll (fuel + 1) (cliHashtabClear sizeofElement freed s) key data ≠
      cliHashtabInsert grantAll (fuel + 1) (cliHashtabInit requested) key data := by
  have fresh : cliHashtabInsert grantAll (fuel + 1) (cliHashtabInit requested) key data =
      some ((cliHashtabInit requested).place i key data, some i) := by
    rw [← atSlot, ← sameCapacity]
    rfl
  have sized : Sized (cliHashtabClear sizeofElement freed s).capacity := reachable.shaped.sized
  have notFree : ¬ (cliHashtabClear sizeofElement freed s).Free i := by
    intro isFree
    simp only [Hashtable.Free, cliHashtabClear, behind, inside, and_self, ↓reduceIte] at isFree
    cases element : s.htable i with
    | empty => exact stale element
    | deleted | full key data => rw [element] at isFree; cases isFree
  intro same
  have inserts := (exists_fuel_iff_inserts _ _).mp ⟨_, same.trans fresh⟩
  have few : growIfFull grantAll (cliHashtabClear sizeofElement freed s) =
      cliHashtabClear sizeofElement freed s :=
    if_neg (Nat.not_lt_zero _)
  rw [few] at inserts
  generalize isAfter : (cliHashtabInit requested).place i key data = after at inserts
  generalize isResult : some i = result at inserts
  cases inserts with
  | @place _ _ idx _ _ probes _ =>
    obtain rfl := Option.some.inj isResult
    cases probes.ends sized with
    | place _ _ isFree => exact notFree isFree
  | noMemory _ failed => exact nomatch failed
  | @update _ _ idx _ _ probes =>
    -- The count of the cleared table stays 0.
    cases probes.ends sized with
    | update _ _ found =>
      obtain ⟨stored, old, element, _⟩ := found
      rw [Hashtable.update_full element] at isAfter
      exact nomatch congrArg Hashtable.used isAfter
  | grow probes _ =>
    -- The first element is always cleared.
    obtain ⟨_, _, noRoom⟩ := (ends_exhausted_iff sized).mp (probes.ends sized)
    have positive : 0 < s.capacity := Nat.zero_lt_of_lt inside
    have atZero : (cliHashtabClear sizeofElement freed s).Open 0 :=
      .inl (if_neg fun both => absurd positive (Nat.not_lt.mpr both.1))
    exact (noRoom 0 positive).1 atZero

/--
A deleted element outlives the clearing, so that inserting its key does not
return; and where freed memory is left as it is, a stored key is still found.
-/
theorem hashtab_clear_leaves_elements : Reachable (cliHashtabDelete oneKeyTable [97]) ∧
      (∀ freed fuel, cliHashtabInsert grantAll fuel
        (cliHashtabClear 24 freed (cliHashtabDelete oneKeyTable [97])) [97] 8 = none) ∧
      cliHashtabFind (cliHashtabClear 24 id oneKeyTable) [97] = some 53 := by
  refine ⟨.delete [97] oneKeyTable_reachable, fun freed => ?_, by decide +kernel⟩
  have buried : (cliHashtabClear 24 freed (cliHashtabDelete oneKeyTable [97])).Buried
    (path 64 [97] 0) := rfl
  have meets : MeetsBuried (cliHashtabClear 24 freed (cliHashtabDelete oneKeyTable [97])) [97] :=
    ⟨0, show 0 < 64 by decide, ⟨.inl (.inr buried), nofun, nofun⟩, buried⟩
  exact cliHashtabInsert_of_meetsBuried meets (Nat.not_lt_zero _) grantAll 8

end LibClamav.Hashtab
