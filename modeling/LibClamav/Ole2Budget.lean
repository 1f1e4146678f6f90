import LibClamav.Ole2Walk
import Mathlib.Algebra.BigOperators.Group.Finset.Basic
import Mathlib.Algebra.Order.BigOperators.Group.Finset

namespace LibClamav.Ole2

open List

/-!
# The bytes that a walk gives away

`maxfilesize` is to bound each stream that the handler gets, and what is left of
`maxscansize` all of them together.  The code takes a stream that one of the two
limits admits.  So a walk keeps both limits exactly if it is the walk that tests
both of them.
-/

/-- The test that the two limits ask for. -/
def bothLimits : Test := fun lim scansize size =>
  size.toNat ≤ lim.maxfilesize ∧ size.toNat ≤ scansize

/-- The bytes that the handler has got -/
def given (s : Walk) : Nat := (s.streams.map UInt32.toNat).sum

/--
The streams of a walk are within the limit on files and together within the
budget, and the counter has come down by their sizes.
-/
structure Within (w maxfilesize budget : Nat) (s : Walk) : Prop where
  single : ∀ size ∈ s.streams, size.toNat ≤ maxfilesize
  total : given s ≤ budget
  counter : given s + s.scansize = budget % 2 ^ w

/-- What holds of the counter in any walk. -/
structure Wraps (w budget : Nat) (s : Walk) : Prop where
  below : s.scansize < 2 ^ w
  counter : (given s + s.scansize) % 2 ^ w = budget % 2 ^ w

section

variable {w maxfilesize budget : Nat} {s s' : Walk}

/-- The counter starts with the budget. -/
theorem wraps_start
    (w budget scannedfiles : Nat) :
    Wraps w budget (start (budget % 2 ^ w) scannedfiles) := by
  refine ⟨Nat.mod_lt _ (Nat.two_pow_pos w), ?_⟩
  rw [given, start, map_nil, sum_nil, Nat.zero_add, Nat.mod_mod]

/-- A walk starts within the limits. -/
theorem within_start
    (w maxfilesize budget scannedfiles : Nat) :
    Within w maxfilesize budget (start (budget % 2 ^ w) scannedfiles) :=
  ⟨nofun, Nat.zero_le _, Nat.zero_add _⟩

/-- The bytes that an earlier state has given away are no more than those of a later one. -/
theorem given_le_of_suffix
    (later : s.streams <:+ s'.streams) :
    given s ≤ given s' := by
  obtain ⟨more, isMore⟩ := later
  rw [given, given, ← isMore, map_append, sum_append]
  exact Nat.le_add_left _ _

/-- If a walk ends within the limits, it has been within them all the way. -/
theorem Within.earlier
    (wraps : Wraps w budget s)
    (later : s.streams <:+ s'.streams)
    (within : Within w maxfilesize budget s') :
    Within w maxfilesize budget s := by
  have less := given_le_of_suffix later
  have total := within.total
  have counter := within.counter
  have below := wraps.below
  refine ⟨fun size held => within.single size (later.mem held), by omega, ?_⟩
  have same := wraps.counter
  rcases Nat.lt_or_ge (given s + s.scansize) (2 ^ w) with small | large
  · rwa [Nat.mod_eq_of_lt small] at same
  · rw [Nat.mod_eq_sub_mod large, Nat.mod_eq_of_lt (by omega)] at same
    omega

/-- The counter after a stream that it covers. -/
theorem give_scansize
    {size : UInt32}
    (below : s.scansize < 2 ^ w)
    (covers : size.toNat ≤ s.scansize)
    (scannedfiles : Nat) :
    (s.give w size scannedfiles).scansize = s.scansize - size.toNat := by
  change (s.scansize + 2 ^ w - size.toNat) % 2 ^ w = _
  rw [Nat.sub_add_comm covers, Nat.add_mod_right]
  exact Nat.mod_eq_of_lt (by omega)

/-- A stream that both limits admit leaves the walk within them. -/
theorem Within.give
    {size : UInt32}
    (within : Within w maxfilesize budget s)
    (single : size.toNat ≤ maxfilesize)
    (covers : size.toNat ≤ s.scansize)
    (scannedfiles : Nat) :
    Within w maxfilesize budget (s.give w size scannedfiles) := by
  have counter := within.counter
  have below : budget % 2 ^ w < 2 ^ w := Nat.mod_lt _ (Nat.two_pow_pos w)
  have bound := Nat.mod_le budget (2 ^ w)
  have isSmall : s.scansize < 2 ^ w := by omega
  have left := give_scansize isSmall covers scannedfiles
  have after : given (s.give w size scannedfiles) = size.toNat + given s := rfl
  exact ⟨forall_mem_cons.mpr ⟨single, within.single⟩, by omega, by omega⟩

/-- The counter wraps around with each stream. -/
theorem Wraps.give
    (wide : 32 ≤ w)
    (wraps : Wraps w budget s)
    (size : UInt32)
    (scannedfiles : Nat) :
    Wraps w budget (s.give w size scannedfiles) := by
  have short := size.toNat_lt
  have large : 2 ^ 32 ≤ 2 ^ w := Nat.pow_le_pow_right (by decide) wide
  refine ⟨Nat.mod_lt _ (Nat.two_pow_pos w), ?_⟩
  change (size.toNat + given s + (s.scansize + 2 ^ w - size.toNat) % 2 ^ w) % 2 ^ w = _
  rw [Nat.add_mod_mod, ← wraps.counter, ← Nat.add_mod_right (given s + s.scansize)]
  congr 1
  omega

variable {o : Header} {lim : Limits} {admits : Test}

/-- The counter wraps around in every walk, and the streams stay given away. -/
theorem kept_wraps
    (wide : 32 ≤ w)
    (before : List UInt32) :
    Kept w admits o lim fun s => Wraps w budget s ∧ before <:+ s.streams := by
  rintro s s' index - - touches ⟨wraps, here⟩
  cases touches with
  | mark => exact ⟨⟨wraps.below, wraps.counter⟩, here⟩
  | give p scannedfiles =>
    have marked : Wraps w budget (s.mark index) := ⟨wraps.below, wraps.counter⟩
    exact ⟨marked.give wide _ _, here.trans (suffix_cons _ _)⟩

/-- The walk that tests both limits stays within them. -/
theorem kept_within : Kept w bothLimits o lim (Within w lim.maxfilesize budget) := by
  rintro s s' index - - touches within
  have marked : Within w lim.maxfilesize budget (s.mark index) :=
    ⟨within.single, within.total, within.counter⟩
  cases touches with
  | mark => exact marked
  | give p scannedfiles _ _ _ admitted =>
    obtain ⟨single, covers⟩ := of_decide_eq_true admitted
    exact marked.give single covers _

variable {call call' : Int → Walk → Option (Int × Walk)} {propIndex : Int} {recLevel calls : Nat}
  {ret : Int}

/-- A stream that both limits admit is one that the code takes. -/
theorem eitherLimit_of_both
    {scansize : Nat}
    {size : UInt32}
    (both : bothLimits lim scansize size = true) :
    eitherLimit lim scansize size = true :=
  decide_eq_true (.inr (.inl (of_decide_eq_true both).1))

/-- A stream that leaves the walk within the limits is one that both of them admit. -/
theorem both_of_given
    {size : UInt32}
    {scannedfiles : Nat}
    (here : Within w lim.maxfilesize budget s)
    (within : Within w lim.maxfilesize budget (s.give w size scannedfiles)) :
    bothLimits lim s.scansize size = true := by
  have single : size.toNat ≤ lim.maxfilesize := within.single size mem_cons_self
  have before := here.counter
  have counter := within.counter
  have after : given (s.give w size scannedfiles) = size.toNat + given s := rfl
  exact decide_eq_true ⟨single, by omega⟩

/--
A visit that leaves the walk within the limits does what it does if it tests both
of them.
-/
theorem visit_both
    (here : Within w lim.maxfilesize budget s)
    (within : Within w lim.maxfilesize budget
      (visit w eitherLimit o lim propIndex recLevel s).state) :
    visit w bothLimits o lim propIndex recLevel s =
      visit w eitherLimit o lim propIndex recLevel s := by
  rw [visit, visit]
  rw [visit] at within
  split
  · rfl
  rename_i accepted
  rw [if_neg accepted] at within
  cases isProperty : o.property propIndex.toNat with
  | none => rfl
  | some p =>
    rw [isProperty] at within
    dsimp only at within ⊢
    have marked : Within w lim.maxfilesize budget (s.mark propIndex.toNat) :=
      ⟨here.single, here.total, here.counter⟩
    by_cases both : bothLimits lim s.scansize p.size = true
    · rw [both, eitherLimit_of_both both]
    have notGiven (scannedfiles : Nat) : ¬ Within w lim.maxfilesize budget
        ((s.mark propIndex.toNat).give w p.size scannedfiles) := by
      intro gives
      have admitted := both_of_given marked gives
      exact both admitted
    by_cases either : eitherLimit lim s.scansize p.size = true
    · -- Only a visit that ends before the test can leave the walk within the limits.
      simp only [if_pos either, if_neg both] at within ⊢
      split_ifs at within ⊢
      all_goals first
        | rfl
        | exact absurd within (notGiven _)
    · simp only [if_neg either, if_neg both]

/--
The calls for the links agree with others that agree with each of them wherever it
leaves the walk within the limits.
-/
theorem walkLinks_both
    (keeps : ∀ link s ret s' before, call link s = some (ret, s') →
      Wraps w budget s ∧ before <:+ s.streams → Wraps w budget s' ∧ before <:+ s'.streams)
    (agree : ∀ link s ret s', call link s = some (ret, s') → Wraps w budget s →
      Within w maxfilesize budget s' → call' link s = some (ret, s'))
    {links : List Int}
    (result : walkLinks call links s = some (ret, s'))
    (wraps : Wraps w budget s)
    (within : Within w maxfilesize budget s') :
    walkLinks call' links s = some (ret, s') := by
  induction links generalizing s with
  | nil => exact result
  | cons link links inductionHypothesis =>
    rw [walkLinks] at result
    cases called : call link s with
    | none =>
      rw [called] at result
      cases result
    | some after =>
      obtain ⟨nextWraps, -⟩ := keeps _ _ _ _ [] called ⟨wraps, nil_suffix⟩
      rw [called] at result
      dsimp only at result
      split_ifs at result with success
      · obtain ⟨-, later⟩ := walkLinks_keeps
          (fun _ _ _ _ => keeps _ _ _ _ after.2.streams) result ⟨nextWraps, suffix_rfl⟩
        rw [walkLinks, agree _ _ _ _ called wraps (within.earlier nextWraps later)]
        dsimp only
        rw [if_pos success]
        exact inductionHypothesis result nextWraps
      · cases result
        rw [walkLinks, agree _ _ _ _ called wraps within]
        dsimp only
        rw [if_neg success]

/-- A walk that ends within the limits is the walk that tests both of them. -/
theorem walk_both
    (wide : 32 ≤ w)
    (result : walkWith w eitherLimit o lim calls propIndex recLevel s = some (ret, s'))
    (wraps : Wraps w budget s)
    (within : Within w lim.maxfilesize budget s') :
    walkWith w bothLimits o lim calls propIndex recLevel s = some (ret, s') := by
  induction calls generalizing propIndex recLevel s ret s' with
  | zero => cases result
  | succ calls inductionHypothesis =>
    have keeps {level : Nat} (link : Int) (s : Walk) (ret : Int) (s' : Walk) (before : List UInt32)
        (result : walkWith w eitherLimit o lim calls link level s = some (ret, s')) :
        Wraps w budget s ∧ before <:+ s.streams → Wraps w budget s' ∧ before <:+ s'.streams :=
      walk_keeps (kept_wraps wide before) result
    obtain ⟨-, whole⟩ := walk_keeps (kept_wraps wide s.streams) result ⟨wraps, suffix_rfl⟩
    have here := within.earlier wraps whole
    have visited : Wraps w budget (visit w eitherLimit o lim propIndex recLevel s).state ∧
        [] <:+ (visit w eitherLimit o lim propIndex recLevel s).state.streams :=
      (kept_wraps wide []).visit ⟨wraps, nil_suffix⟩
    rw [walkWith] at result ⊢
    cases isVisit : visit w eitherLimit o lim propIndex recLevel s with
    | ends ret after =>
      rw [isVisit] at result
      cases result
      rw [visit_both here (by rwa [isVisit]), isVisit]
    | follows level links after =>
      rw [isVisit] at result visited
      obtain ⟨-, later⟩ := walkLinks_keeps
        (fun _ _ _ _ => keeps _ _ _ _ after.streams) result ⟨visited.1, suffix_rfl⟩
      rw [visit_both here (by rw [isVisit]; exact within.earlier visited.1 later), isVisit]
      exact walkLinks_both keeps (fun _ _ _ _ => inductionHypothesis) result visited.1 within

end

section

variable (o : Header)

/-- The bytes of a property that is a stream -/
def streamSize (index : Nat) : Nat :=
  match o.property index with
  | some p => if p.type = 2 then p.size.toNat else 0
  | none => 0

/-- The streams of a file are within the limit on files, and all together within some bytes. -/
structure Fits (maxfilesize bytes : Nat) : Prop where
  single : ∀ index < indices o.maxBlockNo, streamSize o index ≤ maxfilesize
  total : ∑ index ∈ Finset.range (indices o.maxBlockNo), streamSize o index ≤ bytes

/-- The bytes of the streams that a walk can still visit -/
def remaining (s : Walk) : Nat :=
  ∑ index ∈ Finset.range (indices o.maxBlockNo) \ s.bitset, streamSize o index

variable {o} {w budget index : Nat} {lim : Limits} {s : Walk}

/-- A visit of a new property takes its bytes from those that remain. -/
theorem remaining_mark
    (inside : index < indices o.maxBlockNo)
    (fresh : index ∉ s.bitset) :
    remaining o (s.mark index) + streamSize o index = remaining o s := by
  have here : index ∈ Finset.range (indices o.maxBlockNo) \ s.bitset :=
    Finset.mem_sdiff.mpr ⟨Finset.mem_range.mpr inside, fresh⟩
  rw [remaining, Walk.mark, Finset.sdiff_insert, Finset.sum_erase_add _ _ here, remaining]

/-- The walk through a file whose streams fit gives away no more than they have. -/
theorem Fits.kept
    (fits : Fits o lim.maxfilesize (budget % 2 ^ w)) :
    Kept w eitherLimit o lim fun s =>
      Within w lim.maxfilesize budget s ∧ given s + remaining o s ≤ budget % 2 ^ w := by
  rintro s s' index inside fresh touches ⟨within, room⟩
  have fewer := remaining_mark inside fresh
  have marked : Within w lim.maxfilesize budget (s.mark index) :=
    ⟨within.single, within.total, within.counter⟩
  cases touches with
  | mark =>
    refine ⟨marked, ?_⟩
    change given s + _ ≤ _
    omega
  | give p scannedfiles isProperty isFile =>
    have isSize : streamSize o index = p.size.toNat := by
      rw [streamSize, isProperty]
      exact if_pos isFile
    have single := fits.single index inside
    have counter := within.counter
    rw [isSize] at fewer single
    have covers : p.size.toNat ≤ (s.mark index).scansize := by
      change _ ≤ s.scansize
      omega
    refine ⟨marked.give single covers _, ?_⟩
    change p.size.toNat + given s + remaining o (s.mark index) ≤ _
    omega

end

section

variable {o : Header} {lim : Limits} {w budget : Nat} {s : Walk}

/-- The streams that a walk can meet -/
def most (maxBlockNo : UInt32) : Nat := min (indices maxBlockNo) 100001

/-- The state of a walk within the limits, with the streams that it has met -/
structure Counted (w : Nat) (o : Header) (lim : Limits) (budget : Nat) (s : Walk) : Prop
    extends Within w lim.maxfilesize budget s where
  bytes : given s ≤ s.fileCount * min lim.maxfilesize (2 ^ 32 - 1)
  met : s.fileCount + unvisited o s ≤ indices o.maxBlockNo

/--
If as many streams as a walk can meet fit into the budget, and the budget lets no
stream pass that is over the limit on files, the walk stays within the limits.
-/
theorem kept_counted
    (isSet : lim.maxfilesize ≠ 0)
    (room : most o.maxBlockNo * min lim.maxfilesize (2 ^ 32 - 1) ≤ budget % 2 ^ w)
    (alike : budget % 2 ^ w ≤ lim.maxfilesize ∨ 2 ^ 32 - 1 ≤ lim.maxfilesize) :
    Kept w eitherLimit o lim (Counted w o lim budget) := by
  rintro s s' index inside fresh touches counted
  have fewer := unvisited_mark inside fresh
  have met := counted.met
  have marked : Within w lim.maxfilesize budget (s.mark index) :=
    ⟨counted.single, counted.total, counted.counter⟩
  cases touches with
  | mark =>
    refine ⟨marked, counted.bytes, ?_⟩
    change s.fileCount + _ ≤ _
    omega
  | give p scannedfiles _ _ few admitted =>
    have bytes := counted.bytes
    have counter := counted.counter
    have short := p.size.toNat_lt
    have single : p.size.toNat ≤ lim.maxfilesize := by
      rcases of_decide_eq_true admitted with unset | small | left
      · exact absurd unset isSet
      · exact small
      · omega
    have small : p.size.toNat ≤ min lim.maxfilesize (2 ^ 32 - 1) := le_min single (by omega)
    have another : (s.fileCount + 1) * min lim.maxfilesize (2 ^ 32 - 1) ≤ budget % 2 ^ w :=
      (Nat.mul_le_mul_right _ (le_min (by omega) (by omega))).trans room
    have larger : p.size.toNat + given s ≤
        (s.fileCount + 1) * min lim.maxfilesize (2 ^ 32 - 1) := by
      rw [Nat.succ_mul, add_comm]
      exact Nat.add_le_add bytes small
    have covers : p.size.toNat ≤ (s.mark index).scansize := by
      change _ ≤ s.scansize
      omega
    refine ⟨marked.give single covers _, larger, ?_⟩
    change s.fileCount + 1 + unvisited o (s.mark index) ≤ _
    omega

/-- The walk that starts with these bytes left ends, within the limits. -/
def KeepsLimits
    (w : Nat)
    (o : Header)
    (lim : Limits)
    (budget scansize scannedfiles : Nat) :
    Prop :=
  Ends (Within w lim.maxfilesize budget)
    (walkPropertyTree w o lim (indices o.maxBlockNo + 1) 0 0 (start scansize scannedfiles))

/-- A walk keeps the limits exactly if it is the walk that tests both of them. -/
theorem keepsLimits_iff_both
    (wide : 32 ≤ w)
    (scannedfiles : Nat) :
    KeepsLimits w o lim budget (budget % 2 ^ w) scannedfiles ↔
      walkPropertyTree w o lim (indices o.maxBlockNo + 1) 0 0
          (start (budget % 2 ^ w) scannedfiles) =
        walkWith w bothLimits o lim (indices o.maxBlockNo + 1) 0 0
          (start (budget % 2 ^ w) scannedfiles) := by
  constructor
  · rintro ⟨ret, s', result, within⟩
    rw [result]
    exact (walk_both wide result (wraps_start w budget scannedfiles) within).symm
  · intro same
    rw [KeepsLimits, same]
    exact walk_ends kept_within (Nat.lt_succ_of_le (unvisited_start o _ _).le)
      (within_start w _ budget scannedfiles)

/-- A walk through a file whose streams fit keeps the limits. -/
theorem Fits.keepsLimits
    (fits : Fits o lim.maxfilesize (budget % 2 ^ w))
    (scannedfiles : Nat) :
    KeepsLimits w o lim budget (budget % 2 ^ w) scannedfiles := by
  have whole : remaining o (start (budget % 2 ^ w) scannedfiles) ≤ budget % 2 ^ w := by
    rw [remaining, start, Finset.sdiff_empty]
    exact fits.total
  obtain ⟨ret, s', result, within, -⟩ := walk_ends fits.kept
    (Nat.lt_succ_of_le (unvisited_start o (budget % 2 ^ w) scannedfiles).le)
    ⟨within_start w _ budget scannedfiles, (Nat.zero_add _).trans_le whole⟩
  exact ⟨ret, s', result, within⟩

/-- A stream that leads nowhere, and a handler that fails with it -/
def lonely (maxBlockNo size : UInt32) : Header where
  maxBlockNo := maxBlockNo
  property _ := some ⟨2, -1, -1, -1, size⟩
  handler _ scannedfiles := (1, scannedfiles)
  mkdir _ := 0

variable {maxfilesize : Nat} {maxBlockNo : UInt32}

/-- A chain of streams of the largest size shows that they all have to fit. -/
theorem most_fit_of_keeps
    (keeps : ∀ o lim scannedfiles, o.maxBlockNo = maxBlockNo → lim.maxfilesize = maxfilesize →
      KeepsLimits w o lim budget (budget % 2 ^ w) scannedfiles) :
    most maxBlockNo * min maxfilesize (2 ^ 32 - 1) ≤ budget % 2 ^ w := by
  have exact : (UInt32.ofNat (min maxfilesize (2 ^ 32 - 1))).toNat =
      min maxfilesize (2 ^ 32 - 1) := by
    rw [UInt32.toNat_ofNat']
    omega
  obtain ⟨s', result, streams⟩ := @walk_chain_streams w ⟨0, 0, maxfilesize⟩ maxBlockNo _ 0
    (indices maxBlockNo + 1) _ rfl (exact.trans_le (min_le_left _ _)) (most maxBlockNo)
    (Nat.zero_add _) (Nat.lt_succ_of_le (min_le_left _ _)) (before_start (budget % 2 ^ w) 0)
  obtain ⟨ret, s'', same, _, _, counter⟩ :=
    keeps (chain maxBlockNo _) ⟨0, 0, maxfilesize⟩ 0 rfl rfl
  cases result.symm.trans same
  rw [given, streams, start, append_nil, map_replicate, sum_replicate, smul_eq_mul, exact]
    at counter
  omega

/-- A stream over the limit on files shows that the budget must not let it pass. -/
theorem budget_le_of_keeps
    (some : indices maxBlockNo ≠ 0)
    (keeps : ∀ o lim scannedfiles, o.maxBlockNo = maxBlockNo → lim.maxfilesize = maxfilesize →
      KeepsLimits w o lim budget (budget % 2 ^ w) scannedfiles) :
    budget % 2 ^ w ≤ maxfilesize ∨ 2 ^ 32 - 1 ≤ maxfilesize := by
  by_contra apart
  push Not at apart
  obtain ⟨size, exact⟩ : ∃ size : UInt32, size.toNat = maxfilesize + 1 :=
    ⟨UInt32.ofNat (maxfilesize + 1), by rw [UInt32.toNat_ofNat']; omega⟩
  have accepted : ¬ lastIndex maxBlockNo < 0 := by
    unfold indices at some
    omega
  have covers : size.toNat ≤ budget % 2 ^ w := by omega
  have isVisit : visit w eitherLimit (lonely maxBlockNo size) ⟨0, 0, maxfilesize⟩ 0 0
      (start (budget % 2 ^ w) 0) =
        .ends 1 (((start (budget % 2 ^ w) 0).mark 0).give w size 0) := by
    rw [visit, if_neg (by simp [start, lonely, accepted])]
    simp [start, lonely, eitherLimit, covers, clSuccess]
  obtain ⟨ret, s', result, single, _⟩ :=
    keeps (lonely maxBlockNo size) ⟨0, 0, maxfilesize⟩ 0 rfl rfl
  rw [walkPropertyTree, walkWith, isVisit] at result
  cases result
  have within : size.toNat ≤ maxfilesize := single size mem_cons_self
  omega

/-- The condition on the limits, in terms of the number of properties. -/
theorem room_iff
    (isSet : maxfilesize ≠ 0)
    (some : indices maxBlockNo ≠ 0)
    (bytes : Nat) :
    most maxBlockNo * min maxfilesize (2 ^ 32 - 1) ≤ bytes ∧
        (bytes ≤ maxfilesize ∨ 2 ^ 32 - 1 ≤ maxfilesize) ↔
      indices maxBlockNo = 1 ∧ bytes = maxfilesize ∨
        2 ^ 32 - 1 ≤ maxfilesize ∧ most maxBlockNo * (2 ^ 32 - 1) ≤ bytes := by
  have isOne : most maxBlockNo = 1 ↔ indices maxBlockNo = 1 := by
    unfold most
    omega
  rcases Nat.lt_or_ge maxfilesize (2 ^ 32 - 1) with small | large
  · rw [min_eq_left small.le]
    constructor
    · rintro ⟨room, alike⟩
      have few : most maxBlockNo * maxfilesize ≤ 1 * maxfilesize := by omega
      have one : most maxBlockNo = 1 := by
        have atMost := Nat.le_of_mul_le_mul_right few (Nat.pos_of_ne_zero isSet)
        unfold most at atMost ⊢
        omega
      rw [one] at room
      exact .inl ⟨isOne.mp one, by omega⟩
    · rintro (⟨one, rfl⟩ | ⟨large, -⟩)
      · rw [isOne.mpr one]
        omega
      · omega
  · rw [min_eq_right large]
    constructor
    · rintro ⟨room, -⟩
      exact .inr ⟨large, room⟩
    · rintro (⟨one, rfl⟩ | ⟨-, room⟩)
      · rw [isOne.mpr one]
        omega
      · exact ⟨room, .inr large⟩

/--
The limits that no property table breaks: there is no property, or there is one
and the budget is the limit on files, or the limit on files admits every size and
the budget all streams that can be met.
-/
theorem keepsLimits_forall_iff
    (isSet : maxfilesize ≠ 0) :
    (∀ o lim scannedfiles, o.maxBlockNo = maxBlockNo → lim.maxfilesize = maxfilesize →
        KeepsLimits w o lim budget (budget % 2 ^ w) scannedfiles) ↔
      indices maxBlockNo = 0 ∨
        indices maxBlockNo = 1 ∧ budget % 2 ^ w = maxfilesize ∨
          2 ^ 32 - 1 ≤ maxfilesize ∧ most maxBlockNo * (2 ^ 32 - 1) ≤ budget % 2 ^ w := by
  by_cases none : indices maxBlockNo = 0
  · refine ⟨fun _ => .inl none, fun _ o lim scannedfiles isNo isMax => ?_⟩
    subst isNo isMax
    refine Fits.keepsLimits ⟨fun index inside => ?_, ?_⟩ scannedfiles
    · omega
    · rw [none, Finset.range_zero, Finset.sum_empty]
      exact Nat.zero_le _
  rw [← room_iff isSet none, or_iff_right none]
  constructor
  · exact fun keeps => ⟨most_fit_of_keeps keeps, budget_le_of_keeps none keeps⟩
  · rintro ⟨room, alike⟩ o lim scannedfiles rfl rfl
    obtain ⟨ret, s', result, counted⟩ := walk_ends (kept_counted isSet room alike)
      (Nat.lt_succ_of_le (unvisited_start o (budget % 2 ^ w) scannedfiles).le)
      ⟨within_start w _ budget scannedfiles, Nat.zero_le _,
        (Nat.zero_add _).le.trans (unvisited_start o _ _).le⟩
    exact ⟨ret, s', result, counted.toWithin⟩

end

/--
The two limits on a size are alternatives in the code: a stream within one of them
is given to the handler.  A walk keeps both exactly if it is the walk that tests
both, so it does if all streams of the file fit.  Limits that keep every walk
within them are of no use: with an `unsigned long` of 32 bits there is one
property, and the budget is the limit on files.
-/
theorem walk_within_iff
    (w : Nat)
    (wide : 32 ≤ w)
    (maxscansize scanned scansize : Nat)
    (limited : maxscansize ≠ 0)
    (starts : startScansize w maxscansize scanned = some scansize)
    (maxfilesize : Nat)
    (isSet : maxfilesize ≠ 0) :
    (∀ o lim scannedfiles, lim.maxfilesize = maxfilesize →
      (KeepsLimits w o lim (maxscansize - scanned) scansize scannedfiles ↔
        walkPropertyTree w o lim (indices o.maxBlockNo + 1) 0 0 (start scansize scannedfiles) =
          walkWith w bothLimits o lim (indices o.maxBlockNo + 1) 0 0
            (start scansize scannedfiles)) ∧
      (Fits o maxfilesize scansize →
        KeepsLimits w o lim (maxscansize - scanned) scansize scannedfiles)) ∧
    ∀ maxBlockNo, (∀ o lim scannedfiles, o.maxBlockNo = maxBlockNo →
        lim.maxfilesize = maxfilesize →
          KeepsLimits w o lim (maxscansize - scanned) scansize scannedfiles) ↔
      indices maxBlockNo = 0 ∨
        indices maxBlockNo = 1 ∧ (maxscansize - scanned) % 2 ^ w = maxfilesize ∨
          2 ^ 32 - 1 ≤ maxfilesize ∧
            most maxBlockNo * (2 ^ 32 - 1) ≤ (maxscansize - scanned) % 2 ^ w := by
  obtain ⟨-, ⟨⟩⟩ := Option.ite_none_right_eq_some.mp ((if_pos limited).symm.trans starts)
  refine ⟨fun o lim scannedfiles isMax => ⟨keepsLimits_iff_both wide scannedfiles, ?_⟩,
    fun maxBlockNo => keepsLimits_forall_iff isSet⟩
  rw [← isMax]
  exact fun fits => fits.keepsLimits scannedfiles

/-- The properties in a file of 1024 bytes: the root, a stream and two that are not used. -/
def oneStream (size : UInt32) : Header where
  maxBlockNo := 8
  property index :=
    [⟨5, -1, -1, 1, 0⟩, ⟨2, -1, -1, -1, size⟩, ⟨0, 0, 0, 0, 0⟩, ⟨0, 0, 0, 0, 0⟩][index]?
  handler _ scannedfiles := (clSuccess, scannedfiles)
  mkdir _ := 0

/-- A stream of 1500 bytes, where files may have 2000 bytes and 98976 bytes are left. -/
theorem walk_within_one_stream :
    KeepsLimits 32 (oneStream 1500) ⟨10000, 16, 2000⟩ 98976 98976 1 :=
  ((walk_within_iff 32 (by decide) 100000 1024 98976 (by decide) (by decide) 2000
    (by decide)).1 (oneStream 1500) ⟨10000, 16, 2000⟩ 1 rfl).2
      ⟨by decide +kernel, by decide +kernel⟩

/-- A stream of 50000 bytes is given to the handler there. -/
theorem walk_gives_large_stream :
    ¬ KeepsLimits 32 (oneStream 50000) ⟨10000, 16, 2000⟩ 98976 98976 1 := by
  rintro ⟨ret, s', result, single, -⟩
  cases result
  exact absurd (single 50000 mem_cons_self) (by decide)

end LibClamav.Ole2
