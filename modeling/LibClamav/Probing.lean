import Mathlib.Data.Nat.ModEq
import Mathlib.Data.Nat.Prime.Basic
import Mathlib.Data.Fintype.EquivFin
import Mathlib.Tactic.Ring

namespace Probing

/-!
# Open addressing with triangular probing

The slots of a table of `size` entries are tried in the order given by the
triangular numbers, modulo `size`.  For a power of two this order meets every
slot within `size` tries.  The second half says, for any order of the tries,
when each stored key is found where a search for it stops.
-/

variable {bits first slot moves : Nat}

section

/-- The triangular numbers. -/
def tri : Nat → Nat
  | 0 => 0
  | n + 1 => tri n + (n + 1)

theorem two_mul_tri (n : Nat) : 2 * tri n = n * (n + 1) := by
  induction n with
  | zero => rfl
  | succ n ih =>
    rw [tri, mul_add, ih]
    ring

/-- A loop that passes over the first slots has made as many moves, with fewer rounds left. -/
theorem loop_advance
    {γ : Type}
    (loop : Nat → Nat → γ)
    (left moves : Nat)
    (pass : ∀ left, ∀ earlier < moves, loop (left + 1) earlier = loop left (earlier + 1)) :
    loop (left + moves) 0 = loop left moves := by
  induction moves generalizing left with
  | zero => rfl
  | succ moves ih =>
    have before := ih (left + 1) fun left earlier isBefore =>
      pass left earlier (Nat.lt_succ_of_lt isBefore)
    rw [← pass left moves (Nat.lt_succ_self moves), ← before, add_right_comm, add_assoc]

/-- The slot that is looked at after a number of moves; move `n` goes `n` slots on. -/
def probe (size start : Nat) : Nat → Nat
  | 0 => start
  | moves + 1 => (probe size start moves + (moves + 1)) % size

variable {size start : Nat}

/-- The moves add up to triangular numbers. -/
theorem probe_eq_tri
    (inside : start < size)
    (moves : Nat) :
    probe size start moves = (start + tri moves) % size := by
  induction moves with
  | zero => exact (Nat.mod_eq_of_lt inside).symm
  | succ moves ih =>
    rw [probe, ih, Nat.mod_add_mod, tri, add_assoc]

theorem probe_lt
    (inside : start < size)
    (moves : Nat) :
    probe size start moves < size := by
  rw [probe_eq_tri inside]
  exact Nat.mod_lt _ (Nat.zero_lt_of_lt inside)

theorem two_mul_tri_add
    (first gap : Nat) :
    2 * tri (first + gap) = 2 * tri first + gap * (2 * first + gap + 1) := by
  rw [two_mul_tri, two_mul_tri]
  ring

theorem gap_eq_zero_of_dvd
    {gap : Nat}
    (below : first + gap < 2 ^ bits)
    (divides : 2 ^ (bits + 1) ∣ gap * (2 * first + gap + 1)) :
    gap = 0 := by
  rcases Nat.even_or_odd gap with even | odd
  · -- The other factor is odd, so the gap takes the whole power.
    have other : Odd (2 * first + gap + 1) := Even.add_one ((even_two_mul first).add even)
    have coprime : Nat.Coprime (2 ^ (bits + 1)) (2 * first + gap + 1) :=
      Nat.Coprime.pow_left _ (Nat.coprime_two_left.mpr other)
    have whole : 2 ^ (bits + 1) ∣ gap := coprime.dvd_of_dvd_mul_right divides
    refine Nat.eq_zero_of_dvd_of_lt whole ?_
    rw [pow_succ]
    omega
  have coprime : Nat.Coprime (2 ^ (bits + 1)) gap :=
    Nat.Coprime.pow_left _ (Nat.coprime_two_left.mpr odd)
  have whole : 2 ^ (bits + 1) ∣ 2 * first + gap + 1 := coprime.dvd_of_dvd_mul_left divides
  have large := Nat.le_of_dvd (Nat.succ_pos _) whole
  rw [pow_succ] at large
  omega

/-- A path meets no place twice. -/
theorem probe_injective
    (inside : start < 2 ^ bits)
    {later : Nat}
    (ordered : first ≤ later)
    (below : later < 2 ^ bits)
    (meets : probe (2 ^ bits) start first = probe (2 ^ bits) start later) :
    first = later := by
  obtain ⟨gap, rfl⟩ := Nat.exists_eq_add_of_le ordered
  rw [probe_eq_tri inside, probe_eq_tri inside] at meets
  have congruent := Nat.ModEq.add_left_cancel' start meets
  have doubled := congruent.mul_left' 2
  rw [two_mul_tri_add] at doubled
  have divides : 2 * 2 ^ bits ∣ gap * (2 * first + gap + 1) := by
    have difference := (Nat.modEq_iff_dvd' (Nat.le_add_right _ _)).mp doubled
    rwa [Nat.add_sub_cancel_left] at difference
  rw [← pow_succ'] at divides
  rw [gap_eq_zero_of_dvd below divides, add_zero]

/-- It meets every place. -/
theorem exists_probe_eq
    (inside : start < 2 ^ bits)
    (isSlot : slot < 2 ^ bits) :
    ∃ moves < 2 ^ bits, probe (2 ^ bits) start moves = slot := by
  let visit : Fin (2 ^ bits) → Fin (2 ^ bits) :=
    fun moves => ⟨probe (2 ^ bits) start moves, probe_lt inside moves⟩
  have injective : Function.Injective visit := by
    intro first later meets
    have same := congrArg Fin.val meets
    rcases le_total first.val later.val with ordered | ordered
    · exact Fin.ext (probe_injective inside ordered later.isLt same)
    · exact Fin.ext (probe_injective inside ordered first.isLt same.symm).symm
  obtain ⟨moves, meets⟩ := Finite.surjective_of_injective injective ⟨slot, isSlot⟩
  exact ⟨moves, moves.isLt, congrArg Fin.val meets⟩

/-- Every slot is met after a given number of moves from some start. -/
theorem exists_start_probe_eq
    {slot : Nat}
    (isSlot : slot < size)
    (moves : Nat) :
    ∃ start < size, probe size start moves = slot := by
  have positive : 0 < size := Nat.zero_lt_of_lt isSlot
  refine ⟨(slot + (size - tri moves % size)) % size, Nat.mod_lt _ positive, ?_⟩
  have below := Nat.mod_lt (tri moves) positive
  have whole : slot + (size - tri moves % size) + tri moves =
      slot + size * (tri moves / size + 1) := by
    have parts := Nat.div_add_mod (tri moves) size
    rw [Nat.mul_add, Nat.mul_one]
    omega
  rw [probe_eq_tri (Nat.mod_lt _ positive), Nat.mod_add_mod, whole, Nat.add_mul_mod_self_left,
    Nat.mod_eq_of_lt isSlot]

end

variable {κ : Type} {path : κ → Nat → Nat} {size : Nat}

/-- A search for a key looks at the slots of its path and stops here. -/
structure StopsAt (path : κ → Nat → Nat) (free : Nat → Prop) (holds : Nat → κ → Prop) (key : κ)
    (moves : Nat) : Prop where
  here : free (path key moves) ∨ holds (path key moves) key
  notFree : ∀ earlier < moves, ¬ free (path key earlier)
  notHeld : ∀ earlier < moves, ¬ holds (path key earlier) key

/-- Every stored key stands on its path, with no free slot before it. -/
structure Placed
    (path : κ → Nat → Nat) (size : Nat) (free : Nat → Prop) (holds : Nat → κ → Prop) : Prop where
  spot : ∀ {slot key}, holds slot key →
    ∃ moves < size, path key moves = slot ∧ ∀ earlier < moves, ¬ free (path key earlier)
  taken : ∀ {slot key}, holds slot key → ¬ free slot
  single : ∀ {slot key other}, holds slot key → holds slot other → key = other
  once : ∀ {slot other key}, holds slot key → holds other key → slot = other

variable {free : Nat → Prop} {holds : Nat → κ → Prop} {key : κ}

theorem Placed.congr
    {free' : Nat → Prop}
    {holds' : Nat → κ → Prop}
    (sameFree : ∀ slot, free' slot ↔ free slot)
    (sameHeld : ∀ slot key, holds' slot key ↔ holds slot key) :
    Placed path size free' holds' ↔ Placed path size free holds := by
  rw [show free' = free from funext fun slot => propext (sameFree slot),
    show holds' = holds from funext fun slot => funext fun key => propext (sameHeld slot key)]

/-- A path stops once. -/
theorem StopsAt.unique
    {second : Nat}
    (stopsFirst : StopsAt path free holds key first)
    (stopsSecond : StopsAt path free holds key second) :
    first = second := by
  have notBefore : ∀ {a b}, StopsAt path free holds key a →
      StopsAt path free holds key b → ¬ a < b := by
    intro a b stopsA stopsB before
    rcases stopsA.here with isFree | isHeld
    · exact stopsB.notFree a before isFree
    · exact stopsB.notHeld a before isHeld
  rcases Nat.lt_trichotomy first second with before | same | after
  · exact absurd before (notBefore stopsFirst stopsSecond)
  · exact same
  · exact absurd after (notBefore stopsSecond stopsFirst)

/-- It stops at the first place that ends it. -/
theorem exists_stopsAt
    (here : free (path key moves) ∨ holds (path key moves) key) :
    ∃ stop ≤ moves, StopsAt path free holds key stop := by
  classical
  have reached : ∃ stop, free (path key stop) ∨ holds (path key stop) key := ⟨moves, here⟩
  refine ⟨Nat.find reached, Nat.find_min' reached here, Nat.find_spec reached, ?_, ?_⟩
  · exact fun earlier before isFree => Nat.find_min reached before (.inl isFree)
  · exact fun earlier before isHeld => Nat.find_min reached before (.inr isHeld)

variable (placed : Placed path size free holds)

include placed

/-- It stops at a key that is placed. -/
theorem Placed.stopsAt_of_holds
    (held : holds slot key) :
    ∃ moves < size, path key moves = slot ∧ StopsAt path free holds key moves := by
  obtain ⟨moves, inside, atSlot, before⟩ := placed.spot held
  have here : holds (path key moves) key := atSlot ▸ held
  obtain ⟨stop, notLater, stops⟩ : ∃ stop ≤ moves, StopsAt path free holds key stop :=
    exists_stopsAt (.inr here)
  rcases lt_or_eq_of_le notLater with earlier | same
  · rcases stops.here with isFree | isHeld
    · exact absurd isFree (before stop earlier)
    · exact ⟨stop, lt_trans earlier inside, placed.once isHeld held, stops⟩
  · exact ⟨moves, inside, atSlot, same ▸ stops⟩

/-- A key is not there if its path stops at a free place. -/
theorem Placed.absent_of_free
    (stops : StopsAt path free holds key moves)
    (isFree : free (path key moves))
    (slot : Nat) :
    ¬ holds slot key := by
  intro held
  obtain ⟨other, _, atSlot, stopsOther⟩ := placed.stopsAt_of_holds held
  rw [stops.unique stopsOther, atSlot] at isFree
  exact placed.taken held isFree

/-- That is where it is placed. -/
theorem Placed.store
    (inside : moves < size)
    (stops : StopsAt path free holds key moves)
    (isFree : free (path key moves)) :
    Placed path size (fun slot => free slot ∧ slot ≠ path key moves)
      (fun slot other => holds slot other ∨ slot = path key moves ∧ other = key) := by
  have absent := placed.absent_of_free stops isFree
  refine ⟨?_, ?_, ?_, ?_⟩
  · rintro slot other (held | ⟨rfl, rfl⟩)
    · obtain ⟨spot, insideSpot, atSlot, before⟩ := placed.spot held
      exact ⟨spot, insideSpot, atSlot, fun earlier isBefore still =>
        before earlier isBefore still.1⟩
    · exact ⟨moves, inside, rfl, fun earlier isBefore still =>
        stops.notFree earlier isBefore still.1⟩
  · rintro slot other (held | ⟨rfl, rfl⟩) still
    · exact placed.taken held still.1
    · exact still.2 rfl
  · rintro slot first second (heldFirst | ⟨rfl, rfl⟩) (heldSecond | ⟨atSlot, rfl⟩)
    · exact placed.single heldFirst heldSecond
    · exact absurd isFree (atSlot ▸ placed.taken heldFirst)
    · exact absurd isFree (placed.taken heldSecond)
    · rfl
  · rintro slot other stored (heldFirst | ⟨rfl, rfl⟩) (heldSecond | ⟨rfl, same⟩)
    · exact placed.once heldFirst heldSecond
    · exact absurd (same ▸ heldFirst) (absent slot)
    · exact absurd heldSecond (absent other)
    · rfl

/-- Giving the slot of a key back leaves the other keys where they are found exactly if none of
their paths passes through it. -/
theorem Placed.release_iff
    (slot : Nat) :
    Placed path size (fun other => free other ∨ other = slot)
        (fun other stored => holds other stored ∧ other ≠ slot) ↔
      ∀ other stored, holds other stored → other ≠ slot →
        ∃ moves < size, path stored moves = other ∧ ∀ earlier < moves,
          ¬ free (path stored earlier) ∧ path stored earlier ≠ slot := by
  constructor
  · intro released other stored held differs
    obtain ⟨moves, inside, atOther, before⟩ := released.spot ⟨held, differs⟩
    exact ⟨moves, inside, atOther, fun earlier isBefore => not_or.mp (before earlier isBefore)⟩
  intro avoided
  refine ⟨?_, ?_, ?_, ?_⟩
  · rintro other stored ⟨held, differs⟩
    obtain ⟨moves, inside, atOther, before⟩ := avoided other stored held differs
    exact ⟨moves, inside, atOther, fun earlier isBefore => not_or.mpr (before earlier isBefore)⟩
  · rintro other stored ⟨held, differs⟩ (isFree | same)
    · exact placed.taken held isFree
    · exact differs same
  · exact fun first second => placed.single first.1 second.1
  · exact fun first second => placed.once first.1 second.1

end Probing
