import LibClamav.FilterSource

namespace LibClamav.Prefilter

open Ac

/-!
# The part of a pattern that the filter keeps

Whatever the scores are, the part that `filter_add_static` and
`filter_add_acpatt` select lies inside the pattern, has at least one 2-gram and
at most as many as the state has bits.
-/

variable (m : Filter)

theorem staticBest_bound
    (pattern : List UInt8)
    (len maxlen fuel : Nat)
    (j best bestPos)
    (bound : bestPos + 2 ≤ len) :
    staticBest m pattern len maxlen fuel j best bestPos + 2 ≤ len := by
  induction fuel generalizing j best bestPos with
  | zero =>
    exact bound
  | succ fuel ih =>
    unfold staticBest
    split
    · split
      · exact bound
      rename_i fits
      split
      · exact ih _ _ j (by omega)
      · exact ih _ _ bestPos bound
    · exact bound

variable (badness : List Badness)

theorem trimReject_le (i kend : Nat) : trimReject badness i kend ≤ kend := by
  induction kend with
  | zero =>
    exact Nat.le_refl 0
  | succ kend ih =>
    unfold trimReject
    split
    · exact Nat.le_succ_of_le ih
    · exact le_rfl

theorem candidateLoop_kend
    (i fuel : Nat)
    (k scan) :
    (candidateLoop badness i fuel k scan).kend ≤ scan.kend := by
  induction fuel generalizing k scan with
  | zero =>
    exact le_rfl
  | succ fuel ih =>
    unfold candidateLoop
    split_ifs with inside
    · simp only
      split
      · exact le_of_lt inside
      · split
        · exact ih (k + 1) _
        · exact ih (k + 1) _
    · exact le_rfl

/-- A candidate lies inside the pattern and inside the state word. -/
def Choice.Fits (choice : Choice) (j : Nat) : Prop :=
  choice.begin + choice.len ≤ j ∧ choice.len ≤ maxSoPatLen + 1

variable {j : Nat}

theorem addChoice_fits
    {choices : List Choice}
    {i ie : Nat}
    {badness : Badness}
    (allFit : ∀ choice ∈ choices, choice.Fits j)
    (inside : ie < j)
    (short : ie ≤ i + maxSoPatLen) :
    ∀ choice ∈ addChoice choices i ie badness, choice.Fits j := by
  intro choice mem
  unfold addChoice at mem
  split at mem
  · exact allFit choice mem
  rename_i nonempty
  split at mem
  · exact allFit choice mem
  have newFits : Choice.Fits ⟨badness, i, ie - i + 1⟩ j := by
    refine ⟨?_, ?_⟩
    · show i + (ie - i + 1) ≤ j
      omega
    · show ie - i + 1 ≤ maxSoPatLen + 1
      omega
  simp only at mem
  split at mem
  · rcases List.mem_or_eq_of_mem_set mem with old | new
    · exact allFit choice old
    · rw [new]
      exact newFits
  rcases List.mem_append.mp mem with old | new
  · exact allFit choice old
  · rw [List.mem_singleton.mp new]
    exact newFits

/-- All choices lie within the pattern. -/
theorem chooseLoop_fits
    (j fuel : Nat) :
    ∀ i choices, (∀ choice ∈ choices, choice.Fits j) →
      ∀ choice ∈ chooseLoop badness j fuel i choices, choice.Fits j := by
  induction fuel with
  | zero =>
    intro i choices allFit
    exact allFit
  | succ fuel ih =>
    intro i choices allFit
    unfold chooseLoop
    split_ifs with goesOn
    · simp only
      split
      · exact ih _ _ allFit
      split
      · exact ih _ _ allFit
      apply ih
      have trimmed := trimReject_le badness i (min (j - 1) ((i + maxSoPatLen) / 2 * 2))
      have kept := candidateLoop_kend badness i
          (trimReject badness i (min (j - 1) ((i + maxSoPatLen) / 2 * 2))) i
          { kend := trimReject badness i
              (min (j - 1) ((i + maxSoPatLen) / 2 * 2)) }
      simp only at kept
      apply addChoice_fits allFit
      · omega
      · omega
    · exact allFit

/-- A best score above the initial one belongs to a part that fits. -/
def Best.Fits (best : Best) (j : Nat) : Prop :=
  -0x7fffffff < best.score → best.i + best.len ≤ j ∧ 2 ≤ best.len ∧ best.len ≤ maxSoPatLen + 1

theorem Best.Fits.ite
    {candidate best : Best}
    (candidateFits : candidate.Fits j)
    (bestFits : best.Fits j)
    (better : Prop)
    [Decidable better] :
    (if better then candidate else best).Fits j := by
  split
  · exact candidateFits
  · exact bestFits

theorem scoreCandidate_fits
    {choice : Choice}
    (chars : List CharSpec)
    (badness : List Badness)
    (choiceFits : choice.Fits j)
    (places : List Nat)
    (score best)
    (inside : ∀ p ∈ places, p < choice.len - 1)
    (bestFits : best.Fits j) :
    (scoreCandidate m chars badness choice.begin places score best).Fits j := by
  induction places generalizing score best with
  | nil =>
    exact bestFits
  | cons p rest ih =>
    unfold scoreCandidate
    apply ih
    · intro other mem
      exact inside other (by simp [mem])
    refine Best.Fits.ite ?_ bestFits _
    intro _
    have place := inside p (by simp)
    obtain ⟨insidePattern, short⟩ := choiceFits
    refine ⟨?_, ?_, ?_⟩
    · show choice.begin + (p + 2) ≤ j
      omega
    · show 2 ≤ p + 2
      omega
    · show p + 2 ≤ maxSoPatLen + 1
      omega

/-- So does the window that is selected. -/
theorem selectWindow_fits
    {m : Filter}
    {chars : List CharSpec}
    {begin len : Nat}
    (selects : selectWindow m chars = some (begin, len)) :
    begin + len ≤ chars.length ∧ 2 ≤ len ∧ len ≤ maxSoPatLen + 1 := by
  have choicesFit := chooseLoop_fits (pairBadness chars) chars.length chars.length 0 [] (by simp)
  have bestFits (choices : List Choice) :
      ∀ best : Best, (∀ choice ∈ choices, choice.Fits chars.length) → best.Fits chars.length →
        (choices.foldl (fun best choice =>
            scoreCandidate m chars (pairBadness chars) choice.begin
              (List.range (choice.len - 1)) 0 best) best).Fits
          chars.length := by
    induction choices with
    | nil =>
      intro best _ fits
      exact fits
    | cons choice rest ih =>
      intro best allFit fits
      apply ih
      · intro other mem
        exact allFit other (by simp [mem])
      · exact scoreCandidate_fits m chars (pairBadness chars) (allFit choice (by simp)) _ 0 best
          (fun p mem => List.mem_range.mp mem) fits
  have initialFits : ({} : Best).Fits chars.length := by
    intro above
    exact absurd above (by decide)
  have windowFits := bestFits _ {} choicesFit initialFits
  unfold selectWindow at selects
  simp only at selects
  split_ifs at selects with tooLow empty
  obtain ⟨rfl, rfl⟩ := selects
  exact windowFits (by
    unfold scoreChoices at tooLow
    omega)

end LibClamav.Prefilter
