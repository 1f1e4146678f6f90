import Mathlib.Data.List.Basic

namespace ShiftOr

/-!
# Shift-Or search

A bit-parallel search over words of any alphabet.  A clear bit `t` of the state
says that the last `t + 1` symbols may be the first `t + 1` symbols of some
word; a clear bit of `final` says that a word may end there.  The search may
stop too early, but it never runs past a word that the tables contain.
-/

variable {α : Type*} {w t : Nat} (word post : List α)

/-- The two tables of a Shift-Or automaton. -/
structure Tables (α : Type*) (w : Nat) where
  step : α → BitVec w
  final : α → BitVec w

/-- Index of the first symbol at which a word may end. -/
def search (tables : Tables α w) : List α → Nat → BitVec w → Option Nat
  | [], _, _ => none
  | q :: rest, j, state =>
    if (state <<< 1 ||| tables.step q) ||| tables.final q ≠
        BitVec.allOnes w then
      some j
    else
      search tables rest (j + 1) (state <<< 1 ||| tables.step q)

/-- The tables allow the symbols of a word from place `t` on. -/
def AllowsFrom (tables : Tables α w) : Nat → List α → Prop
  | _, [] => True
  | t, q :: rest =>
    (tables.step q).getLsbD t = false ∧ (rest = [] → (tables.final q).getLsbD t = false) ∧
      AllowsFrom tables (t + 1) rest

/-- The tables contain a word. -/
def Allows (tables : Tables α w) (word : List α) : Prop := AllowsFrom tables 0 word

theorem next_getLsbD_zero
    (state mask : BitVec w) :
    (state <<< 1 ||| mask).getLsbD 0 = mask.getLsbD 0 := by
  simp

theorem next_getLsbD_succ
    {state mask : BitVec w}
    (stateClear : state.getLsbD t = false)
    (maskClear : mask.getLsbD (t + 1) = false) :
    (state <<< 1 ||| mask).getLsbD (t + 1) = false := by
  simp [stateClear, maskClear]

theorem ne_allOnes_of_getLsbD
    {word : BitVec w}
    (inside : t < w)
    (isClear : word.getLsbD t = false) :
    word ≠ BitVec.allOnes w := by
  rintro rfl
  simp [inside] at isClear

/-- The state remembers how much of a word was read. -/
def Remembers (state : BitVec w) : Nat → Prop
  | 0 => True
  | t + 1 => state.getLsbD t = false

/-- A partial match is remembered one place further. -/
theorem Remembers.next
    {state mask : BitVec w}
    (remembers : Remembers state t)
    (maskClear : mask.getLsbD t = false) :
    Remembers (state <<< 1 ||| mask) (t + 1) := by
  cases t with
  | zero =>
    exact (next_getLsbD_zero state mask).trans maskClear
  | succ t =>
    exact next_getLsbD_succ remembers maskClear

theorem search_word
    {tables : Tables α w} :
    ∀ (t j : Nat) (state : BitVec w), word ≠ [] → t + word.length ≤ w → AllowsFrom tables t word →
      Remembers state t →
      ∃ found, search tables (word ++ post) j state = some found ∧ found < j + word.length := by
  induction word with
  | nil =>
    intro t j state nonempty
    exact absurd rfl nonempty
  | cons q rest ih =>
    intro t j state _ fits allows remembers
    obtain ⟨stepClear, finalClear, restAllows⟩ := allows
    have remembersNext := remembers.next stepClear
    rw [List.length_cons] at fits ⊢
    rw [List.cons_append, search]
    split
    · exact ⟨j, rfl, by omega⟩
    rename_i noMatch
    by_cases isLast : rest = []
    · -- the end of the word cannot be passed
      refine absurd ?_ noMatch
      apply ne_allOnes_of_getLsbD (show t < w by omega)
      rw [BitVec.getLsbD_or, finalClear isLast]
      exact (Bool.or_false _).trans remembersNext
    · obtain ⟨found, finds, bound⟩ := ih (t + 1) (j + 1) _ isLast (by omega)
          restAllows remembersNext
      exact ⟨found, finds, by omega⟩

/-- A word that is allowed is found. -/
theorem search_finds
    {tables : Tables α w}
    {word : List α}
    (nonempty : word ≠ [])
    (fits : word.length ≤ w)
    (allows : Allows tables word)
    (front : List α)
    (j : Nat)
    (state : BitVec w) :
    ∃ found,
      search tables (front ++ (word ++ post)) j state = some found ∧
        found < j + front.length + word.length := by
  induction front generalizing j state with
  | nil =>
    exact search_word word post 0 j state nonempty (by omega) allows trivial
  | cons q rest ih =>
    rw [List.cons_append, search]
    split
    · refine ⟨j, rfl, ?_⟩
      rw [List.length_cons]
      omega
    obtain ⟨found, finds, bound⟩ := ih (j + 1) _
    refine ⟨found, finds, ?_⟩
    rw [List.length_cons]
    omega

/-- Every entry of one table is kept by the other. -/
structure Includes (smaller larger : Tables α w) : Prop where
  step : ∀ q t, (smaller.step q).getLsbD t = false → (larger.step q).getLsbD t = false
  final : ∀ q t, (smaller.final q).getLsbD t = false → (larger.final q).getLsbD t = false

theorem Includes.refl (tables : Tables α w) : Includes tables tables :=
  ⟨fun _ _ isClear => isClear, fun _ _ isClear => isClear⟩

theorem Includes.trans
    {first second third : Tables α w}
    (firstSecond : Includes first second)
    (secondThird : Includes second third) :
    Includes first third :=
  ⟨fun q t isClear => secondThird.step q t (firstSecond.step q t isClear),
    fun q t isClear => secondThird.final q t (firstSecond.final q t isClear)⟩

/-- Larger tables allow more. -/
theorem AllowsFrom.mono
    {smaller larger : Tables α w}
    (includes : Includes smaller larger)
    (word : List α)
    (t)
    (allows : AllowsFrom smaller t word) :
    AllowsFrom larger t word := by
  induction word generalizing t with
  | nil =>
    trivial
  | cons q rest ih =>
    obtain ⟨stepClear, finalClear, restAllows⟩ := allows
    exact ⟨includes.step q t stepClear, fun isLast => includes.final q t (finalClear isLast),
      ih (t + 1) restAllows⟩

theorem allowsFrom_of_getElem
    {tables : Tables α w}
    (t)
    (steps : ∀ i q, word[i]? = some q → (tables.step q).getLsbD (t + i) = false)
    (ends : ∀ q, word.getLast? = some q → (tables.final q).getLsbD (t + word.length - 1) = false) :
    AllowsFrom tables t word := by
  induction word generalizing t with
  | nil =>
    trivial
  | cons q rest ih =>
    refine ⟨steps 0 q rfl, ?_, ?_⟩
    · rintro rfl
      exact ends q rfl
    apply ih
    · intro i other atIndex
      have atNext := steps (i + 1) other atIndex
      rwa [Nat.add_assoc, Nat.add_comm 1 i]
    intro other isLast
    cases rest with
    | nil => cases isLast
    | cons next later =>
      have atEnd := ends other isLast
      rw [List.length_cons] at atEnd
      have place : t + 1 + (next :: later).length - 1 = t + ((next :: later).length + 1) - 1 := by
        omega
      rwa [place]

end ShiftOr
