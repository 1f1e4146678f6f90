import Mathlib.Logic.Function.Iterate
import Mathlib.Data.List.Basic
import Mathlib.Data.Nat.Init

namespace GreedyScan

open List

/-!
# Scans that hop over what they find

A scan tries the positions from `i` on, below a bound.  Where it accepts, it
picks the position and hops over some of the next ones.  The main result says
when two scans with different tests and different hops pick the same positions.
-/

variable {i j : Nat}

section

variable (accepts : Nat → Bool) (hop : Nat → Nat) (bound : Nat)

/-- The positions a scan picks. -/
def picks (i : Nat) : List Nat :=
  if i < bound then
    if accepts i then
      i :: picks (i + hop i + 1)
    else
      picks (i + 1)
  else
    []
termination_by bound - i

/-- The position that a scan tries next. -/
def next (i : Nat) : Nat :=
  if accepts i then i + hop i + 1 else i + 1

/-- A scan from `i` tries `p` at some time. -/
def Tries (i p : Nat) : Prop := ∃ k, (next accepts hop)^[k] i = p

end

section

variable {accepts : Nat → Bool} {hop : Nat → Nat} {bound : Nat}

theorem picks_of_le (outside : bound ≤ i) : picks accepts hop bound i = [] := by
  rw [picks, if_neg (Nat.not_lt.mpr outside)]

theorem picks_of_accepts
    (inside : i < bound)
    (accepted : accepts i = true) :
    picks accepts hop bound i =
      i :: picks accepts hop bound (i + hop i + 1) := by
  rw [picks, if_pos inside, if_pos accepted]

theorem picks_of_rejects
    (rejected : accepts i = false) :
    picks accepts hop bound i = picks accepts hop bound (i + 1) := by
  by_cases inside : i < bound
  · rw [picks, if_pos inside, if_neg (by simp [rejected])]
  · rw [picks_of_le (by omega), picks_of_le (by omega)]

theorem le_of_mem_picks (i : Nat) : ∀ p ∈ picks accepts hop bound i, i ≤ p := by
  fun_induction picks accepts hop bound i with
  | case1 i inside accepted ih =>
    intro p mem
    rcases mem_cons.mp mem with isFirst | isLater
    · exact Nat.le_of_eq isFirst.symm
    · have behind := ih p isLater
      omega
  | case2 i inside rejected ih =>
    intro p mem
    have behind := ih p mem
    omega
  | case3 i outside =>
    intro p mem
    cases mem

/-- There are no more picks than places. -/
theorem length_picks_le (i : Nat) : (picks accepts hop bound i).length ≤ bound - i := by
  fun_induction picks accepts hop bound i with
  | case1 i inside accepted ih =>
    rw [length_cons]
    omega
  | case2 i inside rejected ih => omega
  | case3 i outside => exact Nat.zero_le _

/-- Rejected places are passed over. -/
theorem picks_skip
    (ordered : i ≤ j)
    (rejected : ∀ q, i ≤ q → q < j → accepts q = false) :
    picks accepts hop bound i = picks accepts hop bound j := by
  induction ordered with
  | refl => rfl
  | @step j ordered ih =>
    rw [ih fun q above below => rejected q above (Nat.lt_succ_of_lt below)]
    exact picks_of_rejects (rejected j ordered (Nat.lt_succ_self j))

theorem picks_congr_hop
    {hop' : Nat → Nat}
    (i : Nat)
    (same : ∀ p < bound, accepts p = true →
      hop p = hop' p ∨ bound ≤ p + hop p + 1 ∧ bound ≤ p + hop' p + 1) :
    picks accepts hop bound i = picks accepts hop' bound i := by
  fun_induction picks accepts hop bound i with
  | case1 i inside accepted ih =>
    rw [picks_of_accepts inside accepted]
    rcases same i inside accepted with sameHop | ⟨leaves, leaves'⟩
    · rw [ih, sameHop]
    · rw [picks_of_le leaves, picks_of_le leaves']
  | case2 i inside rejected ih =>
    rw [ih, ← picks_of_rejects (by simpa using rejected)]
  | case3 i outside =>
    rw [picks_of_le (Nat.not_lt.mp outside)]

theorem picks_congr_accepts
    {accepts' : Nat → Bool}
    (i : Nat)
    (same : ∀ p, i ≤ p → p < bound → accepts p = accepts' p) :
    picks accepts hop bound i = picks accepts' hop bound i := by
  fun_induction picks accepts hop bound i with
  | case1 i inside accepted ih =>
    rw [picks_of_accepts inside ((same i (Nat.le_refl i) inside).symm.trans accepted),
      ih fun p above below => same p (by omega) below]
  | case2 i inside rejected ih =>
    have rejected' : accepts' i = false :=
      (same i (Nat.le_refl i) inside).symm.trans (by simpa using rejected)
    rw [picks_of_rejects rejected', ih fun p above below => same p (by omega) below]
  | case3 i outside =>
    rw [picks_of_le (Nat.not_lt.mp outside)]

/-- A scan is cut where no hop passes. -/
theorem picks_split
    (cut i : Nat)
    (ordered : i ≤ cut)
    (below : cut ≤ bound)
    (lands : ∀ p < cut, accepts p = true → p + hop p + 1 ≤ cut) :
    picks accepts hop bound i = picks accepts hop cut i ++ picks accepts hop bound cut := by
  fun_induction picks accepts hop cut i with
  | case1 i inside accepted ih =>
    rw [picks_of_accepts (Nat.lt_of_lt_of_le inside below) accepted,
      ih (lands i inside accepted), cons_append]
  | case2 i inside rejected ih =>
    rw [picks_of_rejects (by simpa using rejected), ih inside]
  | case3 i outside =>
    rw [Nat.le_antisymm ordered (Nat.not_lt.mp outside), nil_append]

/-- A scan from another place. -/
theorem picks_shift
    (start i : Nat) :
    (picks (fun k => accepts (start + k)) (fun k => hop (start + k)) bound i).map (start + ·) =
      picks accepts hop (start + bound) (start + i) := by
  fun_induction picks (fun k => accepts (start + k)) (fun k => hop (start + k)) bound i with
  | case1 i inside accepted ih =>
    rw [picks_of_accepts (Nat.add_lt_add_left inside start) accepted,
      map_cons, ih, Nat.add_assoc start,
      Nat.add_assoc start]
  | case2 i inside rejected ih =>
    rw [picks_of_rejects (i := start + i) (by simpa using rejected), ih]
    rfl
  | case3 i outside =>
    rw [picks_of_le (by omega)]
    rfl

theorem tries_iff
    {p : Nat} :
    Tries accepts hop i p ↔
      i = p ∨ Tries accepts hop (next accepts hop i) p := by
  constructor
  · rintro ⟨k, reached⟩
    cases k with
    | zero => exact .inl reached
    | succ k => exact .inr ⟨k, reached⟩
  · rintro (isStart | ⟨k, reached⟩)
    · exact ⟨0, isStart⟩
    · exact ⟨k + 1, reached⟩

end

variable {accepts accepts' : Nat → Bool} {hop hop' : Nat → Nat} {bound : Nat}

/--
One scan agrees with another from a position on: at every position it tries
the tests agree, and nothing that only it hops over is accepted by the other.
-/
def Agrees
    (accepts accepts' : Nat → Bool)
    (hop hop' : Nat → Nat)
    (bound i : Nat) :
    Prop :=
  ∀ p, Tries accepts hop i p → p < bound → accepts p = accepts' p ∧ (accepts p = true →
        ∀ q, p + hop' p + 1 ≤ q → q < p + hop p + 1 → q < bound → accepts' q = false)

theorem agrees_iff
    (inside : i < bound) :
    Agrees accepts accepts' hop hop' bound i ↔ (accepts i = accepts' i ∧ (accepts i = true →
          ∀ q, i + hop' i + 1 ≤ q → q < i + hop i + 1 → q < bound → accepts' q = false)) ∧
      Agrees accepts accepts' hop hop' bound (next accepts hop i) := by
  constructor
  · intro agrees
    exact ⟨agrees i (tries_iff.mpr (.inl rfl)) inside,
      fun p tried => agrees p (tries_iff.mpr (.inr tried))⟩
  rintro ⟨here, later⟩ p tried below
  rcases tries_iff.mp tried with isStart | triedLater
  · rw [← isStart]
    exact here
  · exact later p triedLater below

theorem agrees_of_le (outside : bound ≤ i) : Agrees accepts accepts' hop hop' bound i := by
  rintro p ⟨k, reached⟩ below
  have behind : ∀ (k i : Nat), i ≤ (next accepts hop)^[k] i := by
    intro k
    induction k with
    | zero => exact fun i => Nat.le_refl i
    | succ k ih =>
      intro i
      have step : i ≤ next accepts hop i := by
        unfold next
        split <;> omega
      exact Nat.le_trans step (ih _)
  have above := behind k i
  omega

theorem picks_ne_of_lt
    (early : j < i)
    (inside : j < bound)
    (accepted : accepts' j = true) :
    picks accepts hop bound i ≠ picks accepts' hop' bound j := by
  intro same
  rw [picks_of_accepts inside accepted] at same
  have mem : j ∈ picks accepts hop bound i := by
    rw [same]
    exact mem_cons_self
  have behind := le_of_mem_picks i j mem
  omega

/-- Two scans pick the same if one catches up. -/
theorem picks_eq_iff_catch_up
    (ordered : j ≤ i) :
    picks accepts hop bound i = picks accepts' hop' bound j ↔
      (∀ q, j ≤ q → q < i → q < bound → accepts' q = false) ∧
        picks accepts hop bound i = picks accepts' hop' bound i := by
  induction ordered using Nat.decreasingInduction with
  | self => exact ⟨fun same => ⟨fun q above below => by omega, same⟩, And.right⟩
  | of_succ j early ih =>
    by_cases inside : j < bound
    swap
    · rw [picks_of_le (by omega), picks_of_le (by omega), picks_of_le (by omega)]
      exact iff_of_true rfl ⟨fun q above _ below => by omega, rfl⟩
    cases test : accepts' j with
    | true =>
      refine iff_of_false (picks_ne_of_lt early inside test) ?_
      rintro ⟨rejected, -⟩
      have contradiction := rejected j (Nat.le_refl j) early inside
      rw [test] at contradiction
      cases contradiction
    | false =>
      rw [picks_of_rejects test, ih]
      refine and_congr_left fun _ => ?_
      constructor
      · intro rejected q above below belowBound
        rcases Nat.lt_or_eq_of_le above with later | isFirst
        · exact rejected q later below belowBound
        · rw [← isFirst]
          exact test
      · intro rejected q above below belowBound
        exact rejected q (by omega) below belowBound

/--
A scan from `i` and one from an earlier `j` with shorter hops pick the same
positions exactly if the other finds nothing before `i` and they agree from
there on.
-/
theorem picks_eq_iff
    (shorter : ∀ p, hop' p ≤ hop p) :
    ∀ (distance i j : Nat), bound - j ≤ distance → j ≤ i →
      (picks accepts hop bound i = picks accepts' hop' bound j ↔
        (∀ q, j ≤ q → q < i → q < bound → accepts' q = false) ∧
          Agrees accepts accepts' hop hop' bound i) := by
  intro distance
  induction distance with
  | zero =>
    intro i j near ordered
    rw [picks_of_le (by omega), picks_of_le (by omega)]
    exact iff_of_true rfl ⟨fun q above _ below => by omega, agrees_of_le (by omega)⟩
  | succ distance ih =>
    intro i j near ordered
    rw [picks_eq_iff_catch_up ordered]
    refine and_congr_right fun _ => ?_
    by_cases inside : i < bound
    swap
    · rw [picks_of_le (by omega), picks_of_le (by omega)]
      exact iff_of_true rfl (agrees_of_le (by omega))
    rw [agrees_iff inside]
    cases testA : accepts i with
    | true =>
      cases testB : accepts' i with
      | true =>
        have shorterHere := shorter i
        rw [picks_of_accepts inside testA, picks_of_accepts inside testB, cons_inj_right,
          ih (i + hop i + 1) (i + hop' i + 1) (by omega) (by omega)]
        simp only [next, testA, ↓reduceIte, true_and, forall_const]
      | false =>
        refine iff_of_false ?_ fun agree => ?_
        · rw [picks_of_rejects testB]
          exact (picks_ne_of_lt (Nat.lt_succ_self i) inside testA).symm
        · exact Bool.noConfusion agree.1.1
    | false =>
      cases testB : accepts' i with
      | true =>
        refine iff_of_false ?_ fun agree => ?_
        · rw [picks_of_rejects testA]
          exact picks_ne_of_lt (Nat.lt_succ_self i) inside testB
        · exact Bool.noConfusion agree.1.1
      | false =>
        rw [picks_of_rejects testA, picks_of_rejects testB, ih (i + 1) (i + 1) (by omega)
            (Nat.le_refl _)]
        have step : next accepts hop i = i + 1 := by simp [next, testA]
        rw [step]
        constructor
        · rintro ⟨-, later⟩
          exact ⟨⟨rfl, fun impossible => Bool.noConfusion impossible⟩, later⟩
        · rintro ⟨-, later⟩
          exact ⟨fun q above below => by omega, later⟩

/--
Two scans with one test pick the same positions exactly if it rejects what only
one of them hops over, behind every position that the second picks.
-/
theorem picks_eq_iff_hops
    (i : Nat) :
    picks accepts hop bound i = picks accepts hop' bound i ↔
      ∀ p ∈ picks accepts hop' bound i, ∀ q < bound,
        p + min (hop p) (hop' p) < q → q ≤ p + max (hop p) (hop' p) → accepts q = false := by
  induction distance : bound - i using Nat.strong_induction_on generalizing i with
  | _ distance ih =>
    by_cases inside : i < bound
    swap
    · rw [picks_of_le (by omega), picks_of_le (by omega)]
      exact iff_of_true rfl fun p mem => by cases mem
    cases test : accepts i with
    | false =>
      rw [picks_of_rejects test, picks_of_rejects test]
      exact ih _ (by omega) (i + 1) rfl
    | true =>
      rw [picks_of_accepts inside test, picks_of_accepts inside test, cons_inj_right,
        forall_mem_cons]
      have range (low high : Nat) :
          (∀ q, i + low + 1 ≤ q → q < i + high + 1 → q < bound → accepts q = false) ↔
            ∀ q < bound, i + low < q → q ≤ i + high → accepts q = false :=
        ⟨fun rejected q below above upTo => rejected q above (Nat.lt_succ_of_le upTo) below,
          fun rejected q above upTo below => rejected q below above (Nat.le_of_lt_succ upTo)⟩
      rcases Nat.le_total (hop i) (hop' i) with shorter | longer
      · rw [eq_comm, picks_eq_iff_catch_up (by omega), eq_comm, ih _ (by omega) _ rfl,
          Nat.min_eq_left shorter, Nat.max_eq_right shorter, range]
      rw [picks_eq_iff_catch_up (by omega), ih _ (by omega) _ rfl,
        Nat.min_eq_right longer, Nat.max_eq_left longer, range]
      refine and_congr_right fun rejected => ?_
      -- the second scan catches up with the first one without a pick
      rw [(picks_eq_iff_catch_up (by omega)).mpr ⟨(range _ _).mpr rejected, rfl⟩]

end GreedyScan
