import Mathlib.Data.List.TakeWhile

namespace Separators

open List

/-!
# Texts cut at a separator

The run before the first separator and what is behind it, for any type of characters.
-/

variable {α : Type} {p : α → Bool} {text : List α}

/-- A run ends at an element that does not belong to it. -/
theorem stops_behind_takeWhile
    {b : α}
    (next : text[(text.takeWhile p).length]? = some b) :
    p b = false := by
  induction text with
  | nil => cases next
  | cons c rest ih =>
    cases goesOn : p c with
    | true =>
      rw [takeWhile_cons_of_pos goesOn, length_cons, getElem?_cons_succ] at next
      exact ih next
    | false =>
      rw [takeWhile_cons_of_neg (by simp [goesOn])] at next
      rw [← Option.some.inj next, goesOn]

variable [DecidableEq α] {c : α} {front behind : List α}

theorem all_ne (absent : c ∉ front) : ∀ d ∈ front, decide (d ≠ c) = true :=
  fun _ mem => decide_eq_true fun same => absent (same ▸ mem)

theorem takeWhile_ne_append
    (absent : c ∉ front) :
    (front ++ c :: behind).takeWhile (· ≠ c) = front := by
  rw [takeWhile_append_of_pos (all_ne absent), takeWhile_cons_of_neg (by simp), append_nil]

theorem takeWhile_ne_of_notMem (absent : c ∉ front) : front.takeWhile (· ≠ c) = front :=
  takeWhile_eq_self_iff.mpr (all_ne absent)

theorem dropWhile_ne_of_notMem (absent : c ∉ front) : front.dropWhile (· ≠ c) = [] :=
  dropWhile_eq_nil_iff.mpr (all_ne absent)

theorem cut_unique
    {front' behind' : List α}
    (absent : c ∉ front)
    (absent' : c ∉ front')
    (same : front ++ c :: behind = front' ++ c :: behind') :
    front = front' ∧ behind = behind' := by
  have isFront : (front ++ c :: behind).takeWhile (· ≠ c) = front := takeWhile_ne_append absent
  rw [same, takeWhile_ne_append absent'] at isFront
  subst isFront
  exact ⟨rfl, (cons.inj (append_cancel_left same)).2⟩

end Separators
