import Mathlib.Order.Interval.Finset.Nat
import LibClamav.HashtabGrow

namespace LibClamav.Hashtab

open Probing

/-!
# Termination of an insertion

The loops of `cli_hashtab_insert` end unless the probe path of the key meets a
deleted element before an unused one and before the key itself, or the table
has no room for the key.  A table without room grows, but the number of tries is
not set back then: the next round looks at the slot of the hash and goes on with
strides that begin at the old capacity.
-/

variable {δ : Type} {memory : Memory} {s : Hashtable δ} {key : List UInt8} {data : δ}

/-- The inner loop of `cli_hashtab_insert`, begun with a number of tries, ends. -/
def Probes
    (s : Hashtable δ)
    (key : List UInt8)
    (tries : Nat)
    (deletedElement : Option Nat)
    (ended : Probe) :
    Prop :=
  ∃ rounds, insertProbe s key rounds (hash key s.capacity) tries deletedElement = some ended

/-- The outer loop of `cli_hashtab_insert` returns, after a number of growths and of tries. -/
inductive Inserts (memory : Memory) (key : List UInt8) (data : δ) :
    Nat → Nat → Option Nat → Hashtable δ → Hashtable δ → Option Nat → Prop where
  | place {growths tries idx : Nat} {deletedElement : Option Nat} {s : Hashtable δ} :
      Probes s key tries deletedElement (.place idx) → memory.key = true →
      Inserts memory key data growths tries deletedElement s (s.place idx key data) (some idx)
  | noMemory {growths tries idx : Nat} {deletedElement : Option Nat} {s : Hashtable δ} :
      Probes s key tries deletedElement (.place idx) → memory.key = false →
      Inserts memory key data growths tries deletedElement s s none
  | update {growths tries idx : Nat} {deletedElement : Option Nat} {s : Hashtable δ} :
      Probes s key tries deletedElement (.update idx) →
      Inserts memory key data growths tries deletedElement s (s.update idx data) (some idx)
  | grow {growths tries more : Nat} {deletedElement noted : Option Nat} {s after : Hashtable δ}
      {result : Option Nat} :
      Probes s key tries deletedElement (.exhausted noted more) →
      Inserts memory key data (growths + 1) more noted
        ((cliHashtabGrow (memory.table growths) s).getD s) after result →
      Inserts memory key data growths tries deletedElement s after result

variable {growths tries : Nat} {deletedElement : Option Nat} {after grown : Hashtable δ}
  {result : Option Nat}

/-- A run of the outer loop that returns is one of the relation. -/
theorem inserts_of_insertLoop
    {probes rounds : Nat}
    (returned : insertLoop memory key data probes rounds growths tries deletedElement s =
      some (after, result)) :
    Inserts memory key data growths tries deletedElement s after result := by
  induction rounds generalizing growths tries deletedElement s with
  | zero => exact absurd returned nofun
  | succ rounds inductionHypothesis =>
    rw [insertLoop] at returned
    cases ended : insertProbe s key probes (hash key s.capacity) tries deletedElement with
    | none =>
      rw [ended] at returned
      exact absurd returned nofun
    | some probe =>
      rw [ended] at returned
      cases probe with
      | place idx =>
        split_ifs at returned with copied
        · cases returned
          exact .place ⟨probes, ended⟩ copied
        · cases returned
          exact .noMemory ⟨probes, ended⟩ (Bool.eq_false_iff.mpr copied)
      | update idx =>
        cases returned
        exact .update ⟨probes, ended⟩
      | exhausted noted more => exact .grow ⟨probes, ended⟩ (inductionHypothesis returned)

/-- The outer loop gives the result of the relation with every large enough bound. -/
theorem Inserts.insertLoop_eq
    (inserts : Inserts memory key data growths tries deletedElement s after result) :
    ∃ bound, ∀ probes ≥ bound, ∀ rounds ≥ bound,
      insertLoop memory key data probes rounds growths tries deletedElement s =
        some (after, result) := by
  induction inserts with
  | place ends copied | noMemory ends copied =>
    obtain ⟨needed, ended⟩ := ends
    refine ⟨needed + 1, fun probes enough rounds positive => ?_⟩
    obtain ⟨rounds, rfl⟩ := Nat.exists_eq_add_of_lt positive
    rw [insertLoop, insertProbe_le (Nat.le_of_succ_le enough) ended]
    simp [copied]
  | update ends =>
    obtain ⟨needed, ended⟩ := ends
    refine ⟨needed + 1, fun probes enough rounds positive => ?_⟩
    obtain ⟨rounds, rfl⟩ := Nat.exists_eq_add_of_lt positive
    rw [insertLoop, insertProbe_le (Nat.le_of_succ_le enough) ended]
  | grow ends _ inductionHypothesis =>
    obtain ⟨needed, ended⟩ := ends
    obtain ⟨bound, later⟩ := inductionHypothesis
    refine ⟨needed + bound + 1, fun probes enough rounds positive => ?_⟩
    obtain ⟨rounds, rfl⟩ := Nat.exists_eq_add_of_lt positive
    have forProbes : needed ≤ probes := by omega
    rw [insertLoop, insertProbe_le forProbes ended]
    exact later probes (by omega) _ (by omega)

/-- `cli_hashtab_insert` returns exactly the results of its loops. -/
theorem exists_fuel_iff_inserts
    (after : Hashtable δ)
    (result : Option Nat) :
    (∃ fuel, cliHashtabInsert memory fuel s key data = some (after, result)) ↔
      Inserts memory key data 1 1 none (growIfFull memory s) after result := by
  constructor
  · exact fun ⟨fuel, returned⟩ => inserts_of_insertLoop returned
  · intro inserts
    obtain ⟨bound, returned⟩ := inserts.insertLoop_eq
    exact ⟨bound, returned bound (le_rfl) bound (le_rfl)⟩

/-- All elements are in use for other keys. -/
def NoRoom (s : Hashtable δ) (key : List UInt8) : Prop :=
  ∀ idx < s.capacity, ¬ s.Open idx ∧ ¬ s.Matches idx key

/-- A table with an unused element has room for every key. -/
theorem not_noRoom_of_taken_lt
    (room : (taken s.htable s.capacity).card < s.capacity) :
    ¬ NoRoom s key := by
  intro noRoom
  obtain ⟨idx, inside, isFree⟩ := exists_free_of_taken_lt room
  exact (noRoom idx inside).1 (.inl isFree)

/-- The first round ends as its path says. -/
theorem Ends.probes
    {ended : Probe}
    (ends : Ends s key ended)
    (sized : Sized s.capacity) :
    Probes s key 1 none ended :=
  ⟨s.capacity, ends.insertProbe_eq sized le_rfl⟩

/-- Where a probe stops is where it ends. -/
theorem Probes.ends
    {ended : Probe}
    (probes : Probes s key 1 none ended)
    (sized : Sized s.capacity) :
    Ends s key ended :=
  probes.elim fun _ returned => ends_of_insertProbe sized returned

/-- The first round finds no place exactly in a table without room. -/
theorem ends_exhausted_iff
    (sized : Sized s.capacity)
    {noted : Option Nat}
    {more : Nat} :
    Ends s key (.exhausted noted more) ↔
      noted = none ∧ more = s.capacity + 1 ∧ NoRoom s key := by
  constructor
  · intro ends
    cases ends with
    | exhausted notOpen differs =>
      refine ⟨rfl, rfl, fun idx inside => ?_⟩
      obtain ⟨moves, movesInside, rfl⟩ := sized.exists_path_eq key inside
      exact ⟨notOpen moves movesInside, differs moves movesInside⟩
  · rintro ⟨rfl, rfl, noRoom⟩
    exact .exhausted (fun moves _ => (noRoom _ (sized.path_lt key moves)).1)
      (fun moves _ => (noRoom _ (sized.path_lt key moves)).2)

/-- A probe that ends meets no buried place. -/
theorem Ends.not_meetsBuried
    (sized : Sized s.capacity)
    {ended : Probe}
    (ends : Ends s key ended) :
    ¬ MeetsBuried s key := by
  intro meets
  have never := meets.insertProbe_eq s.capacity
  rw [ends.insertProbe_eq sized (le_rfl)] at never
  exact nomatch never

/-- A round that finds a place or the key is the last one. -/
theorem Probes.inserts
    {ended : Probe}
    (probes : Probes s key tries deletedElement ended)
    (found : ∀ noted more, ended ≠ .exhausted noted more)
    (growths : Nat) :
    ∃ after result, Inserts memory key data growths tries deletedElement s after result := by
  cases ended with
  | place idx =>
    cases copied : memory.key with
    | true => exact ⟨_, _, .place probes copied⟩
    | false => exact ⟨_, _, .noMemory probes copied⟩
  | update idx => exact ⟨_, _, .update probes⟩
  | exhausted noted more => exact absurd rfl (found noted more)

/-- An insertion succeeds or finds no room. -/
theorem inserts_or_noRoom
    (sized : Sized s.capacity)
    (notMet : ¬ MeetsBuried s key)
    (growths : Nat) :
    (∃ after result, Inserts memory key data growths 1 none s after result) ∨ NoRoom s key := by
  obtain ⟨ended, ends⟩ := (ends_or_meetsBuried s key).resolve_right notMet
  by_cases found : ∃ noted more, ended = .exhausted noted more
  · obtain ⟨noted, more, rfl⟩ := found
    exact .inr ((ends_exhausted_iff sized).mp ends).2.2
  · push Not at found
    exact .inl ((ends.probes sized).inserts found growths)

/-- With room it succeeds. -/
theorem inserts_of_room
    (room : (taken s.htable s.capacity).card < s.capacity)
    (sized : Sized s.capacity)
    (notBuried : ∀ idx, ¬ s.Buried idx)
    (growths : Nat) :
    ∃ after result, Inserts memory key data growths 1 none s after result := by
  have notMet : ¬ MeetsBuried s key := fun ⟨_, _, _, buried⟩ => notBuried _ buried
  exact (inserts_or_noRoom sized notMet growths).resolve_right (not_noRoom_of_taken_lt room)

/-- A growth unburies every place. -/
theorem Grown.notBuried
    (isGrown : Grown s grown)
    (idx : Nat) :
    ¬ grown.Buried idx :=
  isGrown.moved.filling.notBuried idx

/-- After a growth an insertion succeeds. -/
theorem Grown.inserts
    (isGrown : Grown s grown)
    (sized : Sized s.capacity)
    (growths : Nat) :
    ∃ after result, Inserts memory key data growths 1 none grown after result :=
  inserts_of_room (isGrown.room sized) isGrown.sized isGrown.notBuried growths

/-!
## The rounds after the first

The tries left over from the earlier rounds set the strides, and how many elements
are looked at.
-/

/-- With the tries used up, a round looks at the element at the hash only. -/
theorem NoRoom.probes
    (noRoom : NoRoom s key)
    (sized : Sized s.capacity)
    {ended : Probe}
    (tired : s.capacity ≤ tries)
    (probes : Probes s key tries none ended) :
    ended = .exhausted none (tries + 1) := by
  obtain ⟨rounds, returned⟩ := probes
  have first := noRoom _ (sized.path_lt key 0)
  cases rounds with
  | zero => exact nomatch returned
  | succ rounds =>
    have only := insertProbe_last first.1 first.2 tired rounds none
    exact (Option.some.inj (only.symm.trans returned)).symm

/-- An unused element at the hash is taken, whatever the number of tries. -/
theorem probes_of_free
    (isFree : s.Free (hash key s.capacity))
    (tries : Nat) :
    Probes s key tries none (.place (hash key s.capacity)) := by
  refine ⟨1, ?_⟩
  rw [insertProbe, show s.htable (hash key s.capacity) = .empty from isFree]
  rfl

/--
The elements looked at from `first` tries on are distinct: a round that ends without a place
has met `s.capacity - first` elements in use.
-/
theorem card_taken_of_all_taken
    {start first : Nat}
    (sized : Sized s.capacity)
    (startInside : start < s.capacity)
    (allTaken : ∀ moves, first ≤ moves → moves < s.capacity →
      ¬ s.Free (probe s.capacity start moves)) :
    s.capacity - first ≤ (taken s.htable s.capacity).card := by
  rw [← Nat.card_Ico first s.capacity]
  refine Finset.card_le_card_of_injOn (probe s.capacity start) ?_ ?_
  · intro moves isMove
    obtain ⟨notBefore, inside⟩ := Finset.mem_Ico.mp isMove
    exact mem_taken.mpr ⟨probe_lt startInside moves, allTaken moves notBefore inside⟩
  · intro a aMoves b bMoves same
    have aInside := (Finset.mem_Ico.mp aMoves).2
    have bInside := (Finset.mem_Ico.mp bMoves).2
    exact sized.probe_injective startInside aInside bInside same

/-- A later round in a table without deleted elements: it ends, or all it looked at is in use. -/
theorem probes_later
    (sized : Sized s.capacity)
    (notBuried : ∀ idx, ¬ s.Buried idx)
    {first : Nat}
    (inside : first < s.capacity) :
    (∃ ended, Probes s key (first + 1) none ended ∧ ∀ noted more, ended ≠ .exhausted noted more) ∨
      Probes s key (first + 1) none (.exhausted none (s.capacity + 1)) ∧
        s.capacity - first ≤ (taken s.htable s.capacity).card := by
  have hashInside : hash key s.capacity < s.capacity := sized.path_lt key 0
  obtain ⟨start, startInside, atHash⟩ := exists_start_probe_eq hashInside first
  obtain ⟨ended, returned, whenExhausted⟩ := 
    @insertProbe_from δ s key start first inside notBuried
  rw [atHash] at returned
  by_cases found : ∃ noted more, ended = .exhausted noted more
  · obtain ⟨noted, more, rfl⟩ := found
    obtain ⟨rfl, rfl, allTaken⟩ := whenExhausted noted more rfl
    exact .inr ⟨⟨_, returned⟩, card_taken_of_all_taken sized startInside allTaken⟩
  · push Not at found
    exact .inl ⟨ended, ⟨_, returned⟩, found⟩

/-- A granted growth doubles the table. -/
theorem Grown.double_le
    (isGrown : Grown s grown)
    (sized : Sized s.capacity) :
    2 * s.capacity ≤ grown.capacity := by
  rw [isGrown.capacity]
  exact sized.double_le

theorem Grown.taken_le
    (isGrown : Grown s grown) :
    (taken grown.htable grown.capacity).card ≤ (taken s.htable s.capacity).card :=
  isGrown.moved.filling.count.trans_le isGrown.used_le

/-- The first growth leaves the element at the hash unused. -/
def FreeAfterGrowth (s : Hashtable δ) (key : List UInt8) : Prop :=
  ∃ grown, cliHashtabGrow true s = some grown ∧ grown.Free (hash key grown.capacity)

/-- After a growth from a table with few elements the next round ends. -/
theorem Grown.inserts_of_few
    (isGrown : Grown s grown)
    (sized : Sized s.capacity)
    (few : (taken s.htable s.capacity).card < s.capacity)
    (growths : Nat) :
    ∃ after result, Inserts memory key data growths (s.capacity + 1) none grown after result := by
  have larger := isGrown.double_le sized
  have positive := sized.le
  have fewer := isGrown.taken_le
  rcases @probes_later δ grown key isGrown.sized isGrown.notBuried s.capacity (by omega) with
    ⟨ended, probes, found⟩ | ⟨_, many⟩
  · exact probes.inserts found growths
  · omega

/-- Two growths are enough for a table without room. -/
theorem NoRoom.inserts
    (noRoom : NoRoom s key)
    (sized : Sized s.capacity)
    (growths : Nat)
    (granted : memory.table growths = true)
    (more : FreeAfterGrowth s key ∨ memory.table (growths + 1) = true) :
    ∃ after result, Inserts memory key data growths 1 none s after result := by
  have ends : Ends s key (.exhausted none (s.capacity + 1)) :=
    (ends_exhausted_iff sized).mpr ⟨rfl, rfl, noRoom⟩
  obtain ⟨grown, returned, isGrown⟩ := cliHashtabGrow_spec sized
  have larger := isGrown.double_le sized
  have positive := sized.le
  suffices afterGrowth : ∃ after result,
      Inserts memory key data (growths + 1) (s.capacity + 1) none grown after result by
    obtain ⟨after, result, inserts⟩ := afterGrowth
    refine ⟨after, result, .grow (ends.probes sized) ?_⟩
    rw [granted, returned]
    exact inserts
  rcases more with ⟨_, same, isFree⟩ | grantedAgain
  · obtain rfl := Option.some.inj (returned.symm.trans same)
    exact (probes_of_free isFree _).inserts nofun (growths + 1)
  rcases @probes_later δ grown key isGrown.sized isGrown.notBuried s.capacity (by omega) with
    ⟨ended, probes, found⟩ | ⟨exhausted, _⟩
  · exact probes.inserts found (growths + 1)
  · obtain ⟨again, returnedAgain, isGrownAgain⟩ := cliHashtabGrow_spec isGrown.sized
    obtain ⟨after, result, inserts⟩ : ∃ after result,
        Inserts memory key data (growths + 1 + 1) (grown.capacity + 1) none again after result :=
      isGrownAgain.inserts_of_few isGrown.sized (isGrown.room sized) _
    refine ⟨after, result, .grow exhausted ?_⟩
    rw [grantedAgain, returnedAgain]
    exact inserts

/-- A table without room that never grows keeps the outer loop going. -/
theorem Inserts.granted_of_tired
    (inserts : Inserts memory key data growths tries deletedElement s after result)
    (sized : Sized s.capacity)
    (noRoom : NoRoom s key)
    (nothingNoted : deletedElement = none)
    (tired : s.capacity ≤ tries) :
    ∃ later ≥ growths, memory.table later = true := by
  induction inserts with
  | place probes _ | noMemory probes _ | update probes =>
    subst nothingNoted
    exact nomatch noRoom.probes sized tired probes
  | @grow growths tries more deletedElement noted s after result probes _ inductionHypothesis =>
    subst nothingNoted
    cases noRoom.probes sized tired probes
    cases now : memory.table growths with
    | true => exact ⟨growths, le_rfl, now⟩
    | false =>
      rw [now, cliHashtabGrow_false] at inductionHypothesis
      obtain ⟨later, notEarlier, granted⟩ :=
        inductionHypothesis sized noRoom rfl (Nat.le_succ_of_le tired)
      exact ⟨later, Nat.le_of_succ_le notEarlier, granted⟩

theorem Inserts.granted_of_noRoom
    (inserts : Inserts memory key data growths 1 none s after result)
    (sized : Sized s.capacity)
    (noRoom : NoRoom s key) :
    ∃ later ≥ growths, memory.table later = true := by
  have exhausted : Ends s key (.exhausted none (s.capacity + 1)) :=
    (ends_exhausted_iff sized).mpr ⟨rfl, rfl, noRoom⟩
  have only {ended : Probe} (probes : Probes s key 1 none ended) :
      ended = .exhausted none (s.capacity + 1) := by
    have first := exhausted.insertProbe_eq sized (Nat.le_refl s.capacity)
    rw [(probes.ends sized).insertProbe_eq sized (Nat.le_refl s.capacity)] at first
    exact Option.some.inj first
  cases inserts with
  | place probes _ | noMemory probes _ | update probes => exact nomatch only probes
  | grow probes rest =>
    cases only probes
    cases now : memory.table growths with
    | true => exact ⟨growths, le_rfl, now⟩
    | false =>
      rw [now, cliHashtabGrow_false] at rest
      obtain ⟨later, notEarlier, granted⟩ :=
        rest.granted_of_tired sized noRoom rfl (Nat.le_succ s.capacity)
      exact ⟨later, Nat.le_of_succ_le notEarlier, granted⟩

theorem Inserts.not_meetsBuried
    (inserts : Inserts memory key data growths 1 none s after result)
    (sized : Sized s.capacity) :
    ¬ MeetsBuried s key := by
  cases inserts with
  | place probes _ | noMemory probes _ | update probes | grow probes _ =>
    exact (probes.ends sized).not_meetsBuried sized

/-- The tables that insertions, deletions and searches lead to; a search leaves the table
as it is. -/
inductive Reachable : Hashtable δ → Prop where
  | init (capacity : Nat) : Reachable (cliHashtabInit capacity)
  | insert {s after : Hashtable δ} {memory : Memory} {fuel : Nat} {key : List UInt8} {data : δ}
      {result : Option Nat} :
      Reachable s → cliHashtabInsert memory fuel s key data = some (after, result) →
      Reachable after
  | delete {s : Hashtable δ} (key : List UInt8) : Reachable s → Reachable (cliHashtabDelete s key)

/-- The sizes of a table. -/
structure Shaped (s : Hashtable δ) : Prop where
  sized : Sized s.capacity
  maxfill : s.maxfill = 8 * s.capacity / 10

theorem Shaped.grow
    (shaped : Shaped s)
    (allocated : Bool) :
    Shaped ((cliHashtabGrow allocated s).getD s) := by
  refine grow_keeps shaped.sized shaped (fun grown isGrown => ?_) allocated
  exact ⟨isGrown.sized, isGrown.maxfill.trans (congrArg (· / 10) (mul_comm _ _))⟩

/-- Whatever the loops of an insertion do, they keep the sizes of the table. -/
theorem Inserts.shaped
    (inserts : Inserts memory key data growths tries deletedElement s after result)
    (shaped : Shaped s) :
    Shaped after := by
  induction inserts with
  | place _ _ => exact ⟨shaped.sized, shaped.maxfill⟩
  | noMemory _ _ => exact shaped
  | @update growths tries idx deletedElement s _ =>
    rw [Hashtable.update]
    cases s.htable idx with
    | empty | deleted => exact shaped
    | full stored old => exact ⟨shaped.sized, shaped.maxfill⟩
  | grow _ _ ih => exact ih (shaped.grow _)

/-- Every reachable table is shaped. -/
theorem Reachable.shaped (reachable : Reachable s) : Shaped s := by
  induction reachable with
  | init capacity => exact ⟨sized_nearestPower capacity, rfl⟩
  | @insert s after memory fuel key data result _ returned ih =>
    have inserts := (exists_fuel_iff_inserts after result).mp ⟨fuel, returned⟩
    exact inserts.shaped (growIfFull_keeps ih ih.grow)
  | @delete s key _ ih =>
    rw [cliHashtabDelete]
    cases cliHashtabFind s key with
    | none => exact ih
    | some idx => exact ⟨ih.sized, ih.maxfill⟩

/--
The table grows before the search, or the path of the key meets no deleted element before
an unused one or the key; and a table without room for the key grows in the next round, once
if that leaves the element at the hash unused, else twice.
-/
def InsertEnds (memory : Memory) (s : Hashtable δ) (key : List UInt8) : Prop :=
  s.used > s.maxfill ∧ memory.table 0 = true ∨
    ¬ MeetsBuried s key ∧
      (NoRoom s key →
        memory.table 1 = true ∧ (FreeAfterGrowth s key ∨ memory.table 2 = true))

/-- The growth before the search: it happens, or the table stays as it is. -/
theorem growIfFull_cases
    (memory : Memory)
    (sized : Sized s.capacity) :
    (s.used > s.maxfill ∧ memory.table 0 = true ∧ Grown s (growIfFull memory s)) ∨
      (¬ (s.used > s.maxfill ∧ memory.table 0 = true) ∧ growIfFull memory s = s) := by
  rw [growIfFull]
  split_ifs with full
  · cases granted : memory.table 0 with
    | true =>
      obtain ⟨grown, returned, isGrown⟩ := cliHashtabGrow_spec sized
      rw [returned]
      exact .inl ⟨full, rfl, isGrown⟩
    | false =>
      rw [cliHashtabGrow_false]
      exact .inr ⟨fun both => absurd both.2 Bool.false_ne_true, rfl⟩
  · exact .inr ⟨fun both => full both.1, rfl⟩

/--
From every table that can be reached, `cli_hashtab_insert` returns under `InsertEnds`.  When it
returns and the table did not grow first, the path of the key met no deleted element, and a
table without room grew at some time; with room, the two conditions are the same.
-/
theorem hashtab_insert_returns
    (reachable : Reachable s)
    (memory : Memory)
    (key : List UInt8)
    (data : δ) :
    (InsertEnds memory s key →
      ∃ fuel after result, cliHashtabInsert memory fuel s key data = some (after, result)) ∧
    ((∃ fuel after result, cliHashtabInsert memory fuel s key data = some (after, result)) →
      s.used > s.maxfill ∧ memory.table 0 = true ∨
        ¬ MeetsBuried s key ∧ (NoRoom s key → ∃ later ≥ 1, memory.table later = true)) := by
  have sized := reachable.shaped.sized
  have loops :
      (∃ fuel after result, cliHashtabInsert memory fuel s key data = some (after, result)) ↔
        ∃ after result, Inserts memory key data 1 1 none (growIfFull memory s) after result := by
    constructor
    · rintro ⟨fuel, after, result, returned⟩
      exact ⟨after, result, (exists_fuel_iff_inserts after result).mp ⟨fuel, returned⟩⟩
    · rintro ⟨after, result, inserts⟩
      obtain ⟨fuel, returned⟩ := (exists_fuel_iff_inserts after result).mpr inserts
      exact ⟨fuel, after, result, returned⟩
  rw [loops]
  rcases growIfFull_cases memory sized with ⟨full, granted, isGrown⟩ | ⟨grows, first⟩
  · -- The growth drops the deleted elements and makes room.
    exact ⟨fun _ => isGrown.inserts sized 1, fun _ => .inl ⟨full, granted⟩⟩
  rw [first]
  constructor
  · intro ends
    obtain ⟨notMet, whenFull⟩ := ends.resolve_left grows
    refine (inserts_or_noRoom sized notMet 1).elim id fun noRoom => ?_
    obtain ⟨granted, more⟩ := whenFull noRoom
    exact noRoom.inserts sized 1 granted more
  · rintro ⟨after, result, inserts⟩
    exact .inr ⟨inserts.not_meetsBuried sized, inserts.granted_of_noRoom sized⟩

/-- All allocations succeed. -/
def grantAll : Memory := { table := fun _ => true, key := true }

/-- A table of 64 elements with the key `a`. -/
def oneKeyTable : Hashtable Nat := (cliHashtabInit 16).place (hash [97] 64) [97] 7

theorem oneKeyTable_reachable : Reachable oneKeyTable := by
  have inserted : cliHashtabInsert grantAll 1 (cliHashtabInit 16) [97] 7 =
      some (oneKeyTable, some (hash [97] 64)) := rfl
  exact .insert (.init 16) inserted

/-- With all memory granted, only a deleted element on the path keeps the loops going. -/
theorem insertEnds_grantAll
    (notMet : ¬ MeetsBuried s key) :
    InsertEnds grantAll s key :=
  .inr ⟨notMet, fun _ => ⟨rfl, .inr rfl⟩⟩

/-- The key `a` is stored again: its path starts with its own element. -/
theorem hashtab_insert_returns_oneKeyTable :
    InsertEnds grantAll oneKeyTable [97] ∧
      ∃ fuel after result,
        cliHashtabInsert grantAll fuel oneKeyTable [97] 8 = some (after, result) := by
  have ends : InsertEnds grantAll oneKeyTable [97] := by
    refine insertEnds_grantAll fun ⟨moves, _, _, buried⟩ => ?_
    have noneBuried : ∀ idx, ¬ oneKeyTable.Buried idx := by
      intro idx
      rw [Hashtable.Buried, oneKeyTable, Hashtable.place]
      simp only [Function.update_apply]
      split_ifs <;> nofun
    exact noneBuried _ buried
  exact ⟨ends, (hashtab_insert_returns oneKeyTable_reachable grantAll [97] 8).1 ends⟩

/-- At a buried place the insertion never ends. -/
theorem cliHashtabInsert_of_meetsBuried
    (meets : MeetsBuried s key)
    (few : ¬ s.used > s.maxfill)
    (memory : Memory)
    (data : δ)
    (fuel : Nat) :
    cliHashtabInsert memory fuel s key data = none := by
  cases fuel with
  | zero => rfl
  | succ fuel => rw [cliHashtabInsert, growIfFull, if_neg few, insertLoop, meets.insertProbe_eq]

/-- The key is deleted and inserted again: its path starts with its own deleted element. -/
theorem hashtab_insert_loops_after_delete : Reachable (cliHashtabDelete oneKeyTable [97]) ∧
      ∀ fuel, cliHashtabInsert grantAll fuel (cliHashtabDelete oneKeyTable [97]) [97] 8 = none := by
  refine ⟨.delete [97] oneKeyTable_reachable, ?_⟩
  have buried : (cliHashtabDelete oneKeyTable [97]).Buried (path 64 [97] 0) := rfl
  have meets : MeetsBuried (cliHashtabDelete oneKeyTable [97]) [97] :=
    ⟨0, by decide, ⟨.inl (.inr buried), nofun, nofun⟩, buried⟩
  exact cliHashtabInsert_of_meetsBuried meets (by decide) grantAll 8

end LibClamav.Hashtab
