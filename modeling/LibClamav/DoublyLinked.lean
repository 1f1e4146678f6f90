import LibClamav.LinkedChain

namespace DoublyLinked

open LinkedChain Function
open List (mem_cons mem_reverse nodup_append nodup_cons reverse_perm)

/-!
# Doubly linked lists

A heap of cells with a link in both directions.  The links of a list are those
of its cells in both orders; moving a cell to the end rewrites the links around
it and at the end.
-/

variable {α : Type} [DecidableEq α]

/-- What follows a cell in a list. -/
def nextIn : List α → α → Option α
  | [], _ => none
  | cell :: rest, a => if cell = a then rest.head? else nextIn rest a

section

variable {front back cells : List α} {a : α}

theorem nextIn_append_of_mem
    (mem : a ∈ front) :
    nextIn (front ++ back) a = (nextIn front a).or back.head? := by
  induction front with
  | nil => exact nomatch mem
  | cons cell rest ih =>
    by_cases isCell : cell = a
    · simp [nextIn, isCell, List.head?_append]
    · have later : a ∈ rest := by simpa [Ne.symm isCell] using mem
      simp [nextIn, isCell, ih later]

theorem nextIn_append_of_notMem
    (outside : a ∉ front) :
    nextIn (front ++ back) a = nextIn back a := by
  induction front with
  | nil => rfl
  | cons cell rest ih =>
    simp only [mem_cons, not_or] at outside
    simp [nextIn, Ne.symm outside.1, ih outside.2]

/-- Only the last cell has none behind it. -/
theorem nextIn_eq_none_iff
    (mem : a ∈ cells)
    (nodup : cells.Nodup) :
    nextIn cells a = none ↔ cells.getLast? = some a := by
  induction cells with
  | nil => exact nomatch mem
  | cons cell rest ih =>
    obtain ⟨notLater, laterNodup⟩ := nodup_cons.mp nodup
    cases rest with
    | nil => simpa [nextIn, eq_comm] using mem
    | cons later rest =>
      by_cases isCell : cell = a
      · subst isCell
        have notLast : (later :: rest).getLast? ≠ some cell := fun isLast =>
          notLater (List.mem_of_getLast? isLast)
        simpa [nextIn] using notLast
      · have laterMember : a ∈ later :: rest := by simpa [Ne.symm isCell] using mem
        have isLater := ih laterMember laterNodup
        rw [nextIn, if_neg isCell, isLater, List.getLast?_cons_cons]

/-- A chain is the order of its cells. -/
theorem chain_iff_nextIn
    {next : α → Option α}
    {link : Option α}
    (nodup : cells.Nodup) :
    Chain next link cells ↔ link = cells.head? ∧ ∀ a ∈ cells, next a = nextIn cells a := by
  induction cells generalizing link with
  | nil => simp [Chain]
  | cons cell rest ih =>
    obtain ⟨notLater, laterNodup⟩ := nodup_cons.mp nodup
    have later : (∀ a ∈ rest, next a = nextIn (cell :: rest) a) ↔
        ∀ a ∈ rest, next a = nextIn rest a := by
      refine forall₂_congr fun a mem => ?_
      have notCell : cell ≠ a := fun same => notLater (same ▸ mem)
      rw [nextIn, if_neg notCell]
    have here : nextIn (cell :: rest) cell = rest.head? := by simp [nextIn]
    rw [Chain, ih laterNodup, List.forall_mem_cons, later, here]
    simp

end

/-- The links of a list in both directions. -/
structure Doubly (next prev : α → Option α) (first : Option α) (last : α) (cells : List α) :
    Prop where
  forward : Chain next first cells
  backward : Chain prev (some last) cells.reverse
  nodup : cells.Nodup

/-- Write a link of a cell, if there is a cell. -/
def redirect
    (link : α → Option α)
    (cell : Option α)
    (target : Option α) :
    α → Option α :=
  match cell with
  | some a => update link a target
  | none => link

@[simp] theorem redirect_apply
    (link : α → Option α)
    (cell target : Option α)
    (a : α) :
    redirect link cell target a = if cell = some a then target else link a := by
  cases cell with
  | none => simp [redirect]
  | some b => simp [redirect, update_apply, eq_comm]

variable {next prev : α → Option α} {first : Option α} {last : α} {cells : List α} {a b : α}

section

variable (doubly : Doubly next prev first last cells)

include doubly

theorem Doubly.next_eq (mem : a ∈ cells) : next a = nextIn cells a :=
  ((chain_iff_nextIn doubly.nodup).mp doubly.forward).2 a mem

theorem Doubly.prev_eq (mem : a ∈ cells) : prev a = nextIn cells.reverse a :=
  ((chain_iff_nextIn ((reverse_perm _).nodup_iff.mpr doubly.nodup)).mp doubly.backward).2 a
    (mem_reverse.mpr mem)

theorem Doubly.first_eq : first = cells.head? :=
  ((chain_iff_nextIn doubly.nodup).mp doubly.forward).1

theorem Doubly.last_eq : cells.getLast? = some last := by
  rw [← List.head?_reverse]
  exact ((chain_iff_nextIn ((reverse_perm _).nodup_iff.mpr doubly.nodup)).mp doubly.backward).1.symm

end

/-- The links of a cell. -/
theorem Doubly.links_of_split
    {front back : List α}
    (doubly : Doubly next prev first last (front ++ a :: back)) :
    next a = back.head? ∧ prev a = front.getLast? := by
  have distinct := doubly.nodup
  simp only [nodup_append, nodup_cons, mem_cons] at distinct
  have notFront : a ∉ front := fun mem => distinct.2.2 a mem a (.inl rfl) rfl
  constructor
  · rw [doubly.next_eq (by simp), nextIn_append_of_notMem notFront]
    simp [nextIn]
  · rw [doubly.prev_eq (by simp), List.reverse_append, List.reverse_cons, List.append_assoc,
      nextIn_append_of_notMem (by simpa using distinct.2.1.1)]
    simp [nextIn]

/-- The links are inverse to each other. -/
theorem Doubly.next_iff_prev
    (doubly : Doubly next prev first last cells)
    (isCell : a ∈ cells)
    (isOther : b ∈ cells) :
    next a = some b ↔ prev b = some a := by
  constructor
  · intro isNext
    obtain ⟨front, back, rfl⟩ := List.append_of_mem isCell
    have isHead := doubly.links_of_split.1.symm.trans isNext
    obtain ⟨rest, rfl⟩ := List.head?_eq_some_iff.mp isHead
    rw [List.append_cons] at doubly
    simpa using doubly.links_of_split.2
  intro isPrev
  obtain ⟨front, back, rfl⟩ := List.append_of_mem isOther
  have isLast := doubly.links_of_split.2.symm.trans isPrev
  obtain ⟨init, rfl⟩ := List.getLast?_eq_some_iff.mp isLast
  rw [← List.append_cons] at doubly
  simpa using doubly.links_of_split.1

variable {front back : List α} {x : α}

variable (doubly : Doubly next prev first last (front ++ a :: b :: back))

include doubly

theorem Doubly.next_moveToEnd
    (mem : x ∈ front ++ (b :: back ++ [a])) :
    update (update (redirect next front.getLast? (some b)) last (some a))
      a none x = nextIn (front ++ (b :: back ++ [a])) x := by
  have isLast : (b :: back).getLast? = some last := by simpa using doubly.last_eq
  have lastMember := List.mem_of_getLast? isLast
  have distinct := doubly.nodup
  simp only [nodup_append, nodup_cons, mem_cons] at distinct
  have notBack : a ∉ b :: back := by grind
  have apart : ∀ y ∈ a :: b :: back, y ∉ front := by grind
  by_cases isMoved : x = a
  · subst isMoved
    rw [update_self, nextIn_append_of_notMem (apart x (by simp)), nextIn_append_of_notMem notBack]
    simp [nextIn]
  rw [update_of_ne isMoved]
  by_cases inFront : x ∈ front
  · have notLast : x ≠ last := fun same =>
      apart x (List.mem_cons_of_mem _ (same ▸ lastMember)) inFront
    have isNext := doubly.next_eq (a := x) (by simp [inFront])
    rw [nextIn_append_of_mem inFront] at isNext ⊢
    rw [update_of_ne notLast, redirect_apply, isNext]
    -- the last cell of the front is the only one without a next cell there
    by_cases isEnd : front.getLast? = some x
    · simp [isEnd, (nextIn_eq_none_iff inFront distinct.1).mpr isEnd]
    · obtain ⟨y, isSome⟩ := Option.ne_none_iff_exists'.mp
        (mt (nextIn_eq_none_iff inFront distinct.1).mp isEnd)
      simp [isEnd, isSome]
  · have inBack : x ∈ b :: back := by simpa [inFront, isMoved] using mem
    have isNext := doubly.next_eq (a := x) (by simp [mem_cons.mp inBack])
    rw [nextIn_append_of_notMem inFront, nextIn, if_neg (Ne.symm isMoved)] at isNext
    rw [nextIn_append_of_notMem inFront, nextIn_append_of_mem inBack]
    have notEnd : front.getLast? ≠ some x := fun isEnd => inFront (List.mem_of_getLast? isEnd)
    by_cases atEnd : x = last
    · subst atEnd
      simp [(nextIn_eq_none_iff inBack (by grind)).mpr isLast]
    have isSome := mt (nextIn_eq_none_iff inBack (by grind)).mp
      (by rw [isLast]; simpa using Ne.symm atEnd)
    obtain ⟨y, isSome⟩ := Option.ne_none_iff_exists'.mp isSome
    rw [update_of_ne atEnd, redirect_apply, if_neg notEnd, isNext, isSome]
    rfl

theorem Doubly.prev_moveToEnd
    (mem : x ∈ front ++ (b :: back ++ [a])) :
    update (update prev b front.getLast?) a (some last) x =
      nextIn (front ++ (b :: back ++ [a])).reverse x := by
  have isLast : (b :: back).getLast? = some last := by simpa using doubly.last_eq
  have distinct := doubly.nodup
  have reversed : (front ++ (b :: back ++ [a])).reverse =
      a :: ((b :: back).reverse ++ front.reverse) := by
    simp
  have wasReversed : (front ++ a :: b :: back).reverse =
      (b :: back).reverse ++ a :: front.reverse := by
    simp
  rw [reversed, nextIn]
  by_cases isMoved : x = a
  · subst isMoved
    rw [update_self, if_pos rfl, List.head?_append, List.head?_reverse, isLast]
    rfl
  rw [update_of_ne isMoved, if_neg (Ne.symm isMoved)]
  have wasMember : x ∈ front ++ a :: b :: back := by
    simp only [List.mem_append, mem_cons] at mem ⊢
    tauto
  have isPrev := doubly.prev_eq wasMember
  rw [wasReversed] at isPrev
  by_cases inBack : x ∈ b :: back
  · have inReverse : x ∈ (b :: back).reverse := mem_reverse.mpr inBack
    have reverseNodup : (b :: back).reverse.Nodup := (reverse_perm _).nodup_iff.mpr (by grind)
    rw [nextIn_append_of_mem inReverse] at isPrev ⊢
    by_cases isHead : x = b
    · subst isHead
      have isEnd : nextIn (x :: back).reverse x = none :=
        (nextIn_eq_none_iff inReverse reverseNodup).mpr (by simp)
      rw [update_self, isEnd, List.head?_reverse]
      rfl
    have isSome := mt (nextIn_eq_none_iff inReverse reverseNodup).mp (by simpa using Ne.symm isHead)
    obtain ⟨y, isSome⟩ := Option.ne_none_iff_exists'.mp isSome
    rw [update_of_ne isHead, isPrev, isSome]
    rfl
  · have notReverse : x ∉ (b :: back).reverse := mt mem_reverse.mp inBack
    rw [nextIn_append_of_notMem notReverse] at isPrev ⊢
    rw [nextIn, if_neg (Ne.symm isMoved)] at isPrev
    have notHead : x ≠ b := fun isHead => inBack (by simp [isHead])
    rw [update_of_ne notHead, isPrev]

/-- A cell is moved to the end. -/
theorem Doubly.moveToEnd : Doubly
      (update (update (redirect next front.getLast? (some b)) last (some a)) a none)
      (update (update prev b front.getLast?) a (some last))
      (if front = [] then some b else first) a (front ++ (b :: back ++ [a])) := by
  have nodup : (front ++ (b :: back ++ [a])).Nodup := by
    have distinct := doubly.nodup
    grind
  refine ⟨(chain_iff_nextIn nodup).mpr ⟨?_, fun x => doubly.next_moveToEnd⟩,
    (chain_iff_nextIn ((reverse_perm _).nodup_iff.mpr nodup)).mpr ⟨by simp, ?_⟩, nodup⟩
  · rw [doubly.first_eq]
    cases front <;> simp
  · exact fun x mem => doubly.prev_moveToEnd (mem_reverse.mp mem)

end DoublyLinked
