import LibClamav.AcScanSource
import LibClamav.AcVisits

namespace LibClamav.Ac

open LinkedChain

/-!
# The hits of a scan

A scan is a run of its body over a list of hits that depends only on the buffer
and the matcher: for every visited head that `ac_findmatch` accepts, the members
of its group.
-/

section

variable {base built : AcRoot} {word : Nat → List UInt8}
variable {own : List UInt8 → List Nat} {group : Nat → List Nat}

/-- The hits of one visit. -/
def hitsAt
    (built : AcRoot)
    (group : Nat → List Nat)
    (buffer : List UInt8)
    (args : ScanArgs)
    (visit : Nat × Nat) :
    List Hit :=
  let patt := built.patt visit.2
  let bp := visit.1 + 1 - patt.depth
  let realoff := args.realoff bp patt
  if skipsHead built args visit.2 realoff then
    []
  else
    match acFindmatch buffer bp realoff patt with
    | none => []
    | some matchend =>
      (group visit.2).map fun pt => ⟨visit.2, pt, bp, matchend⟩

/-- The hits of a whole buffer. -/
def hitsOf
    (base built : AcRoot)
    (own : List UInt8 → List Nat)
    (group : Nat → List Nat)
    (buffer : List UInt8)
    (args : ScanArgs) :
    List Hit :=
  (visitsFrom own (startsWord base) [] 0 buffer).flatMap (hitsAt built group buffer args)

section

variable (inv : AcInv base word own group)

include inv

theorem acVisit_eq_run
    {σ ε : Type}
    (tables : Tables base built word)
    (buffer : List UInt8)
    (args : ScanArgs)
    (report : Hit → σ → Except ε σ)
    (stuck : ε)
    {w : List UInt8}
    {p : Nat}
    (isOwn : p ∈ own w)
    (i : Nat)
    (state : σ) :
    acVisit built buffer args report stuck i p state =
      run report (hitsAt built group buffer args (i, p)) state := by
  have isChain := inv.groups.chain isOwn
  rw [← tables.nextSame] at isChain
  have enough : (group p).length ≤ built.acPattable.length := by
    rw [tables.pattable]
    exact length_le_of_nodup (inv.groups.nodup isOwn) fun q mem => inv.groups.valid isOwn mem
  unfold acVisit hitsAt
  simp only
  split
  · rfl
  cases acFindmatch buffer (i + 1 - (built.patt p).depth)
      (args.realoff (i + 1 - (built.patt p).depth) (built.patt p))
      (built.patt p) with
  | none => rfl
  | some matchend =>
    simp only
    rw [loop_eq_run (group p) state isChain enough, run_map]

/-- A scan reports the hits one after the other. -/
theorem acScan_eq_run
    {σ ε : Type}
    (done : Built base built word own)
    (buffer : List UInt8)
    (args : ScanArgs)
    (report : Hit → σ → Except ε σ)
    (stuck : ε)
    (state : σ) :
    acScan built buffer args report stuck state =
      run report (hitsOf base built own group buffer args) state := by
  unfold acScan hitsOf
  rw [scanLoop_eq_run _ _ inv done buffer state (Current.start inv.words)]
  refine run_flatMap _ ?_ state
  rintro ⟨i, p⟩ mem later
  obtain ⟨-, -, inFull⟩ := (mem_visitsFrom buffer).mp mem
  obtain ⟨w, -, isOwn⟩ := own_of_mem_full inFull
  exact acVisit_eq_run inv done.tables buffer args report stuck isOwn i later

/-- The hits of a scan. -/
theorem acHits_eq
    (done : Built base built word own)
    (buffer : List UInt8)
    (args : ScanArgs) :
    acHits built buffer args = .ok (hitsOf base built own group buffer args) := by
  unfold acHits
  rw [acScan_eq_run inv done]
  exact run_collect _ []

/-- `cli_ac_scanbuff` on these hits. -/
theorem cliAcScanbuff_eq
    (done : Built base built word own)
    (buffer : List UInt8)
    (args : ScanArgs)
    (state : AcState) :
    cliAcScanbuff built buffer args state = scanReturn args
        (run (reportHit built args) (hitsOf base built own group buffer args)
          { state with type := 0 }) := by
  unfold cliAcScanbuff
  rw [acScan_eq_run inv done]

end

variable {buffer : List UInt8} {args : ScanArgs} {hit : Hit}

theorem mem_hitsAt
    {i p : Nat} :
    hit ∈ hitsAt built group buffer args (i, p) ↔ hit.head = p ∧ hit.pt ∈ group p ∧
        hit.bp = i + 1 - (built.patt p).depth ∧
        skipsHead built args p (args.realoff hit.bp (built.patt p)) = false ∧
        acFindmatch buffer hit.bp (args.realoff hit.bp (built.patt p))
          (built.patt p) = some hit.matchend := by
  unfold hitsAt
  simp only
  constructor
  · intro mem
    split at mem
    · cases mem
    rename_i kept
    split at mem
    · cases mem
    · rename_i matchend found
      obtain ⟨q, inGroup, rfl⟩ := List.mem_map.mp mem
      exact ⟨rfl, inGroup, rfl, Bool.eq_false_iff.mpr kept, found⟩
  · rintro ⟨isHead, inGroup, isPlace, kept, found⟩
    rw [isPlace] at kept found
    rw [if_neg (Bool.eq_false_iff.mp kept), found]
    refine List.mem_map.mpr ⟨hit.pt, inGroup, ?_⟩
    obtain ⟨head, pt, bp, matchend⟩ := hit
    simp only at isHead isPlace
    rw [isHead, isPlace]

/-- A hit is a pattern of a group whose head was visited. -/
theorem mem_hitsOf : hit ∈ hitsOf base built own group buffer args ↔ ∃ i, i < buffer.length ∧
        hit.head ∈ full own (startsWord base) (buffer.take (i + 1)) ∧
        hit ∈ hitsAt built group buffer args (i, hit.head) := by
  unfold hitsOf
  rw [List.mem_flatMap]
  constructor
  · rintro ⟨⟨i, p⟩, visited, isHit⟩
    obtain ⟨-, inside, inFull⟩ := (mem_visitsFrom buffer).mp visited
    rw [zero_add] at inside
    have isHead := (mem_hitsAt.mp isHit).1
    rw [← isHead] at inFull isHit
    exact ⟨i, inside, inFull, isHit⟩
  rintro ⟨i, inside, inFull, isHit⟩
  refine ⟨(i, hit.head), (mem_visitsFrom buffer).mpr ?_, isHit⟩
  rw [zero_add]
  exact ⟨Nat.zero_le _, inside, inFull⟩

/-- The state in which a scan ends, early or not. -/
def stateOf (result : Except (AcCode × AcState) AcState) : AcState :=
  match result with
  | .ok state => state
  | .error early => early.2

theorem stateOf_iff
    (P : AcState → Prop)
    (result : Except (AcCode × AcState) AcState) :
    P (stateOf result) ↔ Ends P (fun early => P early.2) result := by
  cases result with
  | ok state | error early => exact Iff.rfl

/-- What each report keeps a scan keeps. -/
theorem cliAcScanbuff_rule
    (inv : AcInv base word own group)
    (done : Built base built word own)
    (P : AcData → Prop)
    (step : ∀ hit ∈ hitsOf base built own group buffer args, ∀ state : AcState, P state.mdata →
        P (stateOf (reportHit built args hit state)).mdata)
    {state : AcState}
    (holds : P state.mdata) :
    P (cliAcScanbuff built buffer args state).2.mdata := by
  have kept := run_rule (hitsOf base built own group buffer args) (fun hit mem state holds =>
      (stateOf_iff (fun state => P state.mdata) _).mp (step hit mem state holds))
    { state with type := 0 } holds
  rw [cliAcScanbuff_eq inv done]
  have ends := (stateOf_iff (fun state => P state.mdata) _).mpr kept
  cases outcome : run (reportHit built args)
      (hitsOf base built own group buffer args) { state with type := 0 } with
  | ok later =>
    rw [outcome] at ends
    exact ends
  | error early =>
    rw [outcome] at ends
    exact ends

end

/-- The scans of several buffers with the same data. -/
def scanAll (built : AcRoot) : List (List UInt8 × ScanArgs) → AcState → AcState
  | [], state => state
  | (buffer, args) :: rest, state =>
    scanAll built rest (cliAcScanbuff built buffer args state).2

theorem typeFound_mdata
    (args : ScanArgs)
    (pt : AcPatt)
    (places : List Nat)
    (state : AcState) :
    (stateOf (typeFound args pt places state)).mdata = state.mdata := by
  unfold typeFound
  split_ifs <;> rfl

variable {a b : Nat}

theorem virusFound_lsigcnt
    (args : ScanArgs)
    (pt : AcPatt)
    (realoff : Nat)
    (state : AcState)
    (other : pt.lsigid ≠ some (a, b)) :
    (stateOf (virusFound args pt realoff state)).mdata.lsigcnt a b = state.mdata.lsigcnt a b := by
  unfold virusFound
  split
  · rename_i lsigid1 lsigid2 isLsig
    have different : ¬ (a = lsigid1 ∧ b = lsigid2) := by
      rintro ⟨rfl, rfl⟩
      exact other isLsig
    show (lsigSubMatched state.mdata lsigid1 lsigid2 realoff).lsigcnt a b = _
    unfold lsigSubMatched
    by_cases sameFirst : a = lsigid1
    · subst sameFirst
      have otherSecond : b ≠ lsigid2 := fun same => different ⟨rfl, same⟩
      split_ifs <;> simp [otherSecond]
    · split_ifs <;> simp [sameFirst]
  · split <;> rfl

theorem partFound_lsigcnt
    (args : ScanArgs)
    (pt : AcPatt)
    (realoff matchend : Nat)
    (state : AcState)
    (other : pt.lsigid ≠ some (a, b)) :
    (stateOf (partFound args pt realoff matchend state)).mdata.lsigcnt a b =
      state.mdata.lsigcnt a b := by
  unfold partFound
  simp only
  split_ifs
  · rfl
  · rfl
  · unfold partTypeFound
    have noData := typeFound_mdata args pt
      ((List.range (rowEntries ((state.mdata.offmatrix (pt.sigid - 1)).getD freshMatrix 0)
          acTracklen 1).length).map fun j =>
            (state.mdata.offmatrix (pt.sigid - 1)).getD freshMatrix (pt.parts - 1) (j + 1)) state
    simp only
    split
    · rename_i early found
      rw [found] at noData
      exact congrArg (fun data => AcData.lsigcnt data a b) noData
    rename_i later found
    rw [found] at noData
    have sameCount := congrArg (fun data => AcData.lsigcnt data a b) noData
    split_ifs
    · exact sameCount
    · exact sameCount
  · exact virusFound_lsigcnt args pt realoff state other
  · rfl

/-- A report counts for its own subsignature. -/
theorem reportHit_lsigcnt
    (root : AcRoot)
    (args : ScanArgs)
    (hit : Hit)
    (state : AcState)
    (other : (root.patt hit.pt).lsigid ≠ some (a, b)) :
    (stateOf (reportHit root args hit state)).mdata.lsigcnt a b = state.mdata.lsigcnt a b := by
  unfold reportHit
  simp only
  split_ifs
  · rfl
  · rfl
  · exact partFound_lsigcnt args _ _ _ state other
  · rw [typeFound_mdata]
  · exact virusFound_lsigcnt args _ _ state other
  · rfl

end LibClamav.Ac
