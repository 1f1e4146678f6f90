import LibClamav.PhishCheckSource

namespace LibClamav.Phish

open List Option

/-!
# The verdict on numeric hosts

`url_get_host` puts a dot before the host that `isNumeric` scans, and no number
begins with a dot; `get_host` asks for a known domain with its dot, and no word of the
table begins with one.  Neither bit is ever set, and at its last return `phishingCheck`
reports no match.
-/

variable {text realLink displayLink : List UInt8} {engine : Engine} {urls : UrlCheck}
  {phishy : Phishy}

/-- No number is scanned at a dot. -/
theorem scanInt_dot (text : List UInt8) : scanInt (0x2e :: text) = none := by
  simp [scanInt, isspace]

/-- A host with its first dot is not numeric. -/
theorem isNumeric_dot (host : List UInt8) : isNumeric (0x2e :: host) = false := by
  rw [isNumeric]
  split
  · rfl
  · simp [scanQuad, scanInt_dot]

/-- No word of the table begins with a dot. -/
theorem inTldSet_dot (text : List UInt8) : inTldSet (0x2e :: text) = false := by
  have noDot : ∀ word ∈ tldWords,
      (word.toList.map fun c => UInt8.ofNat c.toNat).head? ≠ some 0x2e := by
    decide +kernel
  rw [inTldSet, inWords, List.any_eq_false]
  intro word isWord same
  refine noDot word isWord ?_
  rw [beq_iff_eq.mp same]
  rfl

/-- The last place of a byte holds that byte. -/
theorem drop_lastOf
    {c : UInt8}
    {place : Nat}
    (isLast : lastOf c text = some place) :
    ∃ rest, text.drop place = c :: rest := by
  induction text generalizing place with
  | nil => exact nomatch isLast
  | cons a text inductionHypothesis =>
    rw [lastOf] at isLast
    cases later : lastOf c text with
    | some i =>
      rw [later] at isLast
      cases isLast
      exact inductionHypothesis later
    | none =>
      rw [later] at isLast
      dsimp only at isLast
      split_ifs at isLast with same
      cases isLast
      exact ⟨text, congrArg (· :: text) same⟩

theorem knownTld_eq_false (realhost : List UInt8) : knownTld realhost = false := by
  rw [knownTld]
  cases isLast : lastOf 0x2e realhost with
  | none => rfl
  | some place =>
    obtain ⟨rest, isRest⟩ := drop_lastOf isLast
    dsimp only
    rw [isRest, inTldSet_dot]

/-- Neither bit of a verdict is set. -/
def Phishy.Unmarked (phishy : Phishy) : Prop :=
  phishy.usernameInUrl = false ∧ phishy.numericIp = false

/-- User names are skipped without a mark. -/
theorem skipUserNames_phishy
    (url : List UInt8)
    (fuel start : Nat)
    (phishy : Phishy) :
    (skipUserNames url fuel start phishy).2.2 = phishy := by
  induction fuel generalizing start with
  | zero => rfl
  | succ fuel inductionHypothesis =>
    rw [skipUserNames]
    split
    · rfl
    · dsimp only
      rw [knownTld_eq_false, if_neg Bool.false_ne_true]
      split
      · rfl
      · exact inductionHypothesis _

/-- The host alone marks nothing. -/
theorem getHost_unmarked
    (url : List UInt8)
    (isReal : Bool)
    (unmarked : phishy.Unmarked) :
    (getHost url isReal phishy).2.2.Unmarked := by
  rw [getHost]
  split
  · rw [skipUserNames_phishy]
    exact unmarked
  · split_ifs
    · exact unmarked
    · rw [skipUserNames_phishy]
      exact unmarked
    · dsimp only
      rw [skipUserNames_phishy]
      exact unmarked
    · rw [skipUserNames_phishy]
      exact unmarked

/-- `url_get_host` leaves both bits as they are. -/
theorem urlGetHost_unmarked
    (url : List UInt8)
    (isReal : Bool)
    (unmarked : phishy.Unmarked) :
    (urlGetHost url isReal phishy).phishy.Unmarked := by
  have kept := getHost_unmarked url isReal unmarked
  rw [urlGetHost]
  dsimp only
  split
  · exact kept
  · rw [assignedHost, isNumeric_dot]
    exact kept

/-- The comparison of the hosts reaches the last return with what the real link left. -/
theorem compareHosts_last
    {displayHost : List UInt8}
    {listed : Option (List UInt8)}
    {later : Phishy}
    (isLast : compareHosts engine urls realLink displayLink displayHost listed phishy =
      .last later) :
    later = (urlGetHost realLink true { phishy with domainListed := true }).phishy := by
  rw [compareHosts] at isLast
  dsimp only at isLast
  generalize (if listed.isSome then urls.flags
    else urls.flags.inter urls.alwaysCheckFlags) = flags at isLast
  iterate 8
    split at isLast
    · cases isLast
  cases isLast
  rfl

/-- The check ends with the hosts of both links. -/
theorem phishingCheck_last
    (isLast : phishingCheck engine urls = some (.last phishy)) :
    ∃ realLink displayLink,
      phishy = (urlGetHost realLink true
        { (urlGetHost displayLink false {}).phishy with domainListed := true }).phishy := by
  rw [phishingCheck] at isLast
  iterate 4
    split at isLast
    · cases isLast
  obtain ⟨⟨realLink, displayLink, preDisplay⟩, -, isLast⟩ := bind_eq_some_iff.mp isLast
  refine ⟨realLink, (isURL displayLink true).2, ?_⟩
  dsimp only at isLast
  iterate 4
    split at isLast
    · cases isLast
  exact compareHosts_last (some.inj isLast)

/--
Whatever the lists of the engine, the real link (a dotted quad as well as any other) and the
displayed one are: a check that reaches the last return has neither a user name nor a numeric
host to report, and its verdict is `CL_PHISH_NOMATCH`.
-/
theorem numeric_host_never_reported
    (engine : Engine)
    (urls : UrlCheck)
    (phishy : Phishy)
    (isLast : phishingCheck engine urls = some (.last phishy)) :
    phishy.numericIp = false ∧ (CheckEnd.last phishy).status = .nomatch ∧
      ¬ (phishy.usernameInUrl = false → (CheckEnd.last phishy).status = .numericIp) := by
  obtain ⟨realLink, displayLink, isPhishy⟩ := phishingCheck_last isLast
  have display : (urlGetHost displayLink false {}).phishy.Unmarked :=
    urlGetHost_unmarked displayLink false ⟨rfl, rfl⟩
  obtain ⟨noUser, noNumber⟩ : phishy.Unmarked := by
    rw [isPhishy]
    exact urlGetHost_unmarked realLink true display
  have verdict : (CheckEnd.last phishy).status = .nomatch := by
    rw [CheckEnd.status, phishyMap, noUser, noNumber]
    rfl
  refine ⟨noNumber, verdict, fun reported => ?_⟩
  exact nomatch verdict.symm.trans (reported noUser)

/-- An engine whose domain list matches every host and whose other lists are empty. -/
def listingEngine : Engine where
  isNumericURL := fun _ => false
  urlHashMatch := fun _ => .nodecision
  whitelistMatch := fun _ _ _ => false
  domainlistMatch := fun host _ _ => some host

/-- All checks of a link to `http://1.2.3.4/` behind `b.com`. -/
def quadCheck : UrlCheck where
  realLink := [0x68, 0x74, 0x74, 0x70, 0x3a, 0x2f, 0x2f, 0x31, 0x2e, 0x32, 0x2e, 0x33, 0x2e, 0x34,
    0x2f]
  displayLink := [0x62, 0x2e, 0x63, 0x6f, 0x6d]
  flags := ⟨true, true, true, true⟩
  alwaysCheckFlags := ⟨false, false, false, false⟩
  linkIsImage := false

theorem numeric_host_never_reported_quadCheck :
    phishingCheck listingEngine quadCheck = some (.last ⟨false, false, false, true⟩) ∧
      (CheckEnd.last ⟨false, false, false, true⟩).status = .nomatch := by
  have isLast : phishingCheck listingEngine quadCheck =
      some (.last ⟨false, false, false, true⟩) := by
    decide +kernel
  exact ⟨isLast, (numeric_host_never_reported listingEngine quadCheck _ isLast).2.1⟩

/-- A link to `http://1.2.3.4/` behind `b.com` is reported as one without a match. -/
theorem numeric_host_not_reported :
    ∃ phishy, phishingCheck listingEngine quadCheck = some (.last phishy) ∧
      phishy.usernameInUrl = false ∧ (CheckEnd.last phishy).status ≠ .numericIp :=
  ⟨⟨false, false, false, true⟩, by decide +kernel⟩

end LibClamav.Phish
