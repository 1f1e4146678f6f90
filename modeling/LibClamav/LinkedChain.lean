import Mathlib.Logic.Relation
import Mathlib.Data.List.Basic

namespace LinkedChain

open List

/-!
# Singly linked lists

A heap of cells is given by the link `next` of every cell.  A chain is the list
of the cells that are met from one link on; loops over the links of a heap are
folds over the chain.
-/

variable {α : Type} {p : α}

/-- The cells met from a link on, up to the null link. -/
def Chain (next : α → Option α) : Option α → List α → Prop
  | link, [] => link = none
  | link, cell :: rest => link = some cell ∧ Chain next (next cell) rest

section

variable {σ ε β : Type} {body : α → σ → Except ε σ} (cells : List α)

/-- `while(cell) { body; cell = cell->next; }`, with a bound on its rounds. -/
def loop
    (next : α → Option α)
    (body : α → σ → Except ε σ)
    (stuck : ε) :
    Nat → Option α → σ → Except ε σ
  | _, none, state => .ok state
  | 0, some _, _ => .error stuck
  | fuel + 1, some cell, state =>
    match body cell state with
    | .error result => .error result
    | .ok later => loop next body stuck fuel (next cell) later

/-- The loop over a chain, as a function of the list of its cells. -/
def run (body : α → σ → Except ε σ) : List α → σ → Except ε σ
  | [], state => .ok state
  | cell :: rest, state =>
    match body cell state with
    | .error result => .error result
    | .ok later => run body rest later

/-- A loop along a chain runs over its cells. -/
theorem loop_eq_run
    {next : α → Option α}
    {stuck : ε}
    {link : Option α}
    {fuel : Nat}
    (state : σ)
    (isChain : Chain next link cells)
    (enough : cells.length ≤ fuel) :
    loop next body stuck fuel link state = run body cells state := by
  induction cells generalizing link fuel state with
  | nil =>
    cases isChain
    cases fuel <;> rfl
  | cons cell rest ih =>
    obtain ⟨rfl, isRest⟩ := isChain
    cases fuel with
    | zero => cases enough
    | succ fuel =>
      rw [loop, run]
      cases body cell state with
      | error result => rfl
      | ok later =>
        exact ih later isRest (Nat.le_of_succ_le_succ enough)

/-- A run in two parts. -/
theorem run_append
    (body : α → σ → Except ε σ)
    (front back : List α)
    (state) :
    run body (front ++ back) state =
      match run body front state with
      | .error result => .error result
      | .ok later => run body back later := by
  induction front generalizing state with
  | nil => rfl
  | cons cell rest ih =>
    rw [cons_append, run, run]
    cases body cell state with
    | error result => rfl
    | ok later => exact ih later

theorem run_map
    (body : β → σ → Except ε σ)
    (f : α → β)
    (cells : List α)
    (state) :
    run body (cells.map f) state = run (fun cell => body (f cell)) cells state := by
  induction cells generalizing state with
  | nil => rfl
  | cons cell rest ih =>
    rw [map_cons, run, run]
    cases body (f cell) state with
    | error result => rfl
    | ok later => exact ih later

/-- Runs inside a run. -/
theorem run_flatMap
    {inner : β → σ → Except ε σ}
    {f : α → List β}
    (isLoop : ∀ cell ∈ cells, ∀ state, body cell state = run inner (f cell) state)
    (state) :
    run body cells state = run inner (cells.flatMap f) state := by
  induction cells generalizing state with
  | nil => rfl
  | cons cell rest ih =>
    rw [flatMap_cons, run_append, run, isLoop cell mem_cons_self state]
    cases run inner (f cell) state with
    | error result => rfl
    | ok later =>
      exact ih (fun other mem => isLoop other (mem_cons_of_mem _ mem)) later

/-- A loop ends in a state with `P`, or early with a result with `Q`. -/
def Ends (P : σ → Prop) (Q : ε → Prop) : Except ε σ → Prop
  | .ok state => P state
  | .error result => Q result

/-- What each step keeps a run keeps. -/
theorem run_rule
    {P : σ → Prop}
    {Q : ε → Prop}
    (step : ∀ cell ∈ cells, ∀ state, P state → Ends P Q (body cell state))
    (state)
    (holds : P state) :
    Ends P Q (run body cells state) := by
  induction cells generalizing state with
  | nil => exact holds
  | cons cell rest ih =>
    have kept := step cell mem_cons_self state holds
    rw [run]
    cases outcome : body cell state with
    | error result =>
      rw [outcome] at kept
      exact kept
    | ok later =>
      rw [outcome] at kept
      exact ih (fun other mem => step other (mem_cons_of_mem _ mem)) later kept

theorem run_collect
    (before : List α) :
    run (fun cell met => .ok (met ++ [cell])) cells before =
      (.ok (before ++ cells) : Except ε (List α)) := by
  induction cells generalizing before with
  | nil =>
    rw [run, append_nil]
  | cons cell rest ih =>
    rw [append_cons before cell rest]
    exact ih (before ++ [cell])

end

/-- `while(cell->next) cell = cell->next;`, with a bound on its rounds. -/
def last (next : α → Option α) : Nat → α → Option α
  | 0, _ => none
  | fuel + 1, cell =>
    match next cell with
    | none => some cell
    | some later => last next fuel later

theorem last_eq
    {next : α → Option α}
    (rest : List α)
    {cell : α}
    {fuel : Nat}
    (isChain : Chain next (next cell) rest)
    (enough : rest.length < fuel) :
    last next fuel cell = some ((cell :: rest).getLast (cons_ne_nil cell rest)) := by
  induction rest generalizing cell fuel with
  | nil =>
    cases fuel with
    | zero => cases enough
    | succ fuel =>
      have atEnd : next cell = none := isChain
      rw [last, atEnd]
      rfl
  | cons later rest ih =>
    cases fuel with
    | zero => cases enough
    | succ fuel =>
      have link : next cell = some later := isChain.1
      rw [last, link]
      exact ih isChain.2 (Nat.lt_of_succ_lt_succ enough)

theorem Chain.mem_of_link
    {next : α → Option α}
    {q : α}
    (cells : List α) :
    ∀ {link : Option α}, Chain next link cells → q ∈ cells → next q = some p → p ∈ cells.tail := by
  induction cells with
  | nil => exact nofun
  | cons cell rest ih =>
    intro link isChain mem points
    obtain ⟨-, isRest⟩ := isChain
    rcases mem_cons.mp mem with isFirst | isLater
    · rw [← isFirst, points] at isRest
      cases rest with
      | nil => cases isRest
      | cons later rest =>
        obtain ⟨isNext, -⟩ := isRest
        cases isNext
        exact mem_cons_self
    · exact mem_of_mem_tail (ih isRest isLater points)

theorem Chain.link_of_mem_tail
    {next : α → Option α}
    (cells : List α) :
    ∀ {link : Option α}, Chain next link cells → p ∈ cells.tail → ∃ q, next q = some p := by
  induction cells with
  | nil => exact nofun
  | cons cell rest ih =>
    intro link isChain mem
    obtain ⟨-, isRest⟩ := isChain
    cases rest with
    | nil => cases mem
    | cons later rest =>
      rcases mem_cons.mp mem with isFirst | isLater
      · rw [isFirst]
        exact ⟨cell, isRest.1⟩
      · exact ih isRest isLater

/-- Following links from one cell leads to another. -/
def Reaches (next : α → Option α) : α → α → Prop :=
  Relation.ReflTransGen fun cell later => next cell = some later

/-- The cells are those that are reached. -/
theorem Chain.mem_iff_reaches
    {next : α → Option α}
    {b : α}
    (cells : List α) :
    ∀ {a : α}, Chain next (some a) cells → (b ∈ cells ↔ Reaches next a b) := by
  induction cells with
  | nil => exact nofun
  | cons cell rest ih =>
    intro a isChain
    obtain ⟨isFirst, isRest⟩ := isChain
    cases isFirst
    constructor
    · intro mem
      rcases mem_cons.mp mem with isFirst | isLater
      · rw [isFirst]
        exact .refl
      cases rest with
      | nil => cases isLater
      | cons later rest =>
        have link : next cell = some later := isRest.1
        rw [link] at isRest
        exact Relation.ReflTransGen.head link ((ih isRest).mp isLater)
    · intro reaches
      rcases Relation.ReflTransGen.cases_head reaches with
        isSame | ⟨later, link, onward⟩
      · rw [isSame]
        exact mem_cons_self
      · rw [link] at isRest
        exact mem_cons_of_mem _ ((ih isRest).mpr onward)

variable [DecidableEq α] {next : α → Option α}

/-- A link outside does not matter. -/
theorem Chain.update
    {cell : α}
    (link' : Option α)
    (cells : List α) :
    ∀ {link : Option α}, Chain next link cells → cell ∉ cells →
      Chain (Function.update next cell link') link cells := by
  induction cells with
  | nil => exact fun isChain _ => isChain
  | cons first rest ih =>
    intro link isChain outside
    have notFirst := ne_of_not_mem_cons outside
    have notLater := not_mem_of_not_mem_cons outside
    refine ⟨isChain.1, ?_⟩
    rw [Function.update_of_ne (Ne.symm notFirst)]
    exact ih isChain.2 notLater

/-- A chain is put behind another. -/
theorem Chain.splice
    {link' : Option α}
    {others : List α}
    (isOther : Chain next link' others)
    (rest : List α)
    {cell : α}
    (isChain : Chain next (next cell) rest)
    (nodup : (cell :: rest).Nodup)
    (outside : (cell :: rest).getLast (cons_ne_nil cell rest) ∉ others) :
    Chain (Function.update next ((cell :: rest).getLast (cons_ne_nil cell rest)) link')
      (some cell) (cell :: rest ++ others) := by
  induction rest generalizing cell with
  | nil =>
    refine ⟨rfl, ?_⟩
    rw [getLast_singleton, Function.update_self]
    exact isOther.update link' others outside
  | cons later rest ih =>
    obtain ⟨notLater, laterNodup⟩ := nodup_cons.mp nodup
    have lastMember := getLast_mem (cons_ne_nil later rest)
    have notLast : cell ≠ (later :: rest).getLast (cons_ne_nil later rest) := by
      intro same
      rw [← same] at lastMember
      exact notLater lastMember
    refine ⟨rfl, ?_⟩
    rw [getLast_cons (cons_ne_nil later rest), Function.update_of_ne notLast, isChain.1]
    exact ih isChain.2 laterNodup outside

end LinkedChain
