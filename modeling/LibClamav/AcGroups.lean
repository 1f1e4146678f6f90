import LibClamav.AcHits
import LibClamav.AcSides

namespace LibClamav.Ac

open LinkedChain List

/-!
# Groups of patterns

`cli_ac_addpatt` puts patterns with the same text into one group, and
`cli_ac_scanbuff` asks `ac_findmatch` about the first of them only.  The
comparison leaves out the boundary flags and the distances of the anchors.
-/

variable {patt : AcPatt} {w : List UInt8} {h q p : Nat}

/-- What `cli_ac_addsig` keeps about the prefix of a pattern. -/
structure AcPatt.Formed (patt : AcPatt) : Prop where
  prefixless : patt.hasPrefix = false → patt.prefixPat = []
  counted : patt.specialPattern = patt.prefixPat.countP (· = .special)

/-- The text of a pattern stands in the buffer, whatever is around it. -/
def TextAt (buffer : List UInt8) (offset : Nat) (patt : AcPatt) : Prop :=
  offset + patt.pattern.length ≤ buffer.length ∧ patt.prefixPat.length ≤ offset ∧
    (matchPattern buffer patt.specialTable (patt.pattern.drop patt.depth)
      (offset + patt.depth) patt.specialPattern).isSome ∧
    (matchPrefix buffer patt.specialTable patt.prefixPat (offset - patt.prefixPat.length) 0).isSome

/-- The boundary flags and the anchors of a pattern hold around its text. -/
def sideChecks
    (buffer : List UInt8)
    (offset fileoffset : Nat)
    (patt : AcPatt) :
    Bool :=
  match matchPattern buffer patt.specialTable
      (patt.pattern.drop patt.depth) (offset + patt.depth)
      patt.specialPattern with
  | none => false
  | some (finish, specialcnt) =>
    checkBoundary buffer offset fileoffset finish patt.boundary &&
      match checkAnchorRight buffer patt.specialTable patt.anchorRight
          finish specialcnt with
      | none => false
      | some behind =>
        checkAnchorLeft buffer patt.specialTable patt.anchorLeft (offset - patt.prefixPat.length)
          (if patt.hasPrefix then
            (matchPrefix buffer patt.specialTable patt.prefixPat
              (offset - patt.prefixPat.length) 0).getD 0
          else
            behind)

/-- `ac_findmatch` accepts where the text stands and its sides are right. -/
theorem acFindmatch_isSome_iff
    (formed : patt.Formed)
    (buffer : List UInt8)
    (offset fileoffset : Nat) :
    (acFindmatch buffer offset fileoffset patt).isSome = true ↔ TextAt buffer offset patt ∧
        sideChecks buffer offset fileoffset patt = true := by
  unfold acFindmatch TextAt sideChecks
  by_cases outside : offset + patt.pattern.length > buffer.length ∨ patt.prefixPat.length > offset
  · rw [if_pos outside]
    constructor
    · exact nofun
    · rintro ⟨⟨inside, room, -⟩, -⟩
      omega
  rw [if_neg outside]
  obtain ⟨inside, room⟩ := not_or.mp outside
  have bounds := And.intro (not_lt.mp inside) (not_lt.mp room)
  cases matchPattern buffer patt.specialTable (patt.pattern.drop patt.depth) (offset + patt.depth)
      patt.specialPattern with
  | none => simp
  | some found =>
    obtain ⟨finish, specialcnt⟩ := found
    simp only [Option.isSome_some, true_and]
    cases checkBoundary buffer offset fileoffset finish patt.boundary with
    | false => simp
    | true =>
      cases checkAnchorRight buffer patt.specialTable patt.anchorRight finish specialcnt with
      | none => simp
      | some behind =>
        cases hasPrefix : patt.hasPrefix with
        | false =>
          have empty := formed.prefixless hasPrefix
          rw [empty] at bounds ⊢
          simp [matchPrefix, bounds.1]
        | true =>
          cases matchPrefix buffer patt.specialTable
              patt.prefixPat (offset - patt.prefixPat.length) 0 with
          | none => simp
          | some front => simp [bounds.1, bounds.2]

/-- What an accepted pattern has passed. -/
theorem acFindmatch_eq_some
    {buffer : List UInt8}
    {offset fileoffset matchend : Nat}
    (found : acFindmatch buffer offset fileoffset patt = some matchend) :
    ∃ specialcnt, matchPattern buffer patt.specialTable (patt.pattern.drop patt.depth)
        (offset + patt.depth) patt.specialPattern = some (matchend, specialcnt) := by
  unfold acFindmatch at found
  split at found
  · cases found
  split at found
  · cases found
  rename_i finish specialcnt isMatch
  split at found
  · cases found
  split at found
  · cases found
  simp only at found
  split at found
  · cases found
  split at found
  · cases found
    exact ⟨specialcnt, isMatch⟩
  · cases found

/-- Where the text of two patterns stands, their flags and anchors agree. -/
def SidesAgree (a b : AcPatt) : Prop :=
  ∀ buffer offset fileoffset, TextAt buffer offset a → sideChecks buffer offset fileoffset a =
      sideChecks buffer offset fileoffset b

section

variable {a b : AcPatt}

section

variable (aFormed : a.Formed) (bFormed : b.Formed) (depth : a.depth = b.depth)
  (same : samePatt a b = some true) (buffer : List UInt8) (offset : Nat)

include aFormed bFormed depth same

theorem matchPattern_of_same : matchPattern buffer a.specialTable (a.pattern.drop a.depth)
        (offset + a.depth) a.specialPattern =
      matchPattern buffer b.specialTable (b.pattern.drop b.depth)
        (offset + b.depth) b.specialPattern := by
  obtain ⟨patterns, prefixes, -, -, specials, -⟩ := samePatt_true_iff.mp same
  rw [aFormed.counted, bFormed.counted, patterns, prefixes, specials, depth]

/-- Equal patterns have the same text. -/
theorem textAt_of_same : TextAt buffer offset a ↔ TextAt buffer offset b := by
  unfold TextAt
  rw [matchPattern_of_same aFormed bFormed depth same]
  obtain ⟨patterns, prefixes, -, -, specials, -⟩ := samePatt_true_iff.mp same
  rw [patterns, prefixes, specials]

/-- Patterns agree if they are accepted at the same places. -/
theorem sidesAgree_iff :
    SidesAgree a b ↔ ∀ buffer offset fileoffset, (acFindmatch buffer offset fileoffset a).isSome =
          (acFindmatch buffer offset fileoffset b).isSome := by
  refine forall_congr' fun buffer => forall_congr' fun offset => forall_congr' fun fileoffset => ?_
  rw [Bool.eq_iff_iff, @Bool.eq_iff_iff (Option.isSome _),
    acFindmatch_isSome_iff aFormed, acFindmatch_isSome_iff bFormed,
    ← textAt_of_same aFormed bFormed depth same]
  constructor
  · intro agree
    exact and_congr_right agree
  intro accepted text
  have sides := accepted
  rw [and_iff_right text, and_iff_right text] at sides
  exact sides

/-- Patterns with the same flags and anchors agree wherever their text stands. -/
theorem SidesAgree.of_same (sides : SameSides a b) : SidesAgree a b := by
  have texts := matchPattern_of_same aFormed bFormed depth same
  obtain ⟨-, prefixes, leftCh, rightCh, specials, -⟩ := samePatt_true_iff.mp same
  have sameBoundary (buffer : List UInt8) (offset fileoffset finish : Nat) :
      checkBoundary buffer offset fileoffset finish a.boundary =
        checkBoundary buffer offset fileoffset finish b.boundary := by
    rw [← checkBoundary_normal, sides.boundary, checkBoundary_normal]
  have sameRight (buffer : List UInt8) (finish specialcnt : Nat) :
      checkAnchorRight buffer b.specialTable a.anchorRight finish specialcnt =
        checkAnchorRight buffer b.specialTable b.anchorRight finish
          specialcnt := by
    cases ignored : a.anchorRight.ch.hasIgnoreBit with
    | false => rw [sides.right ignored]
    | true =>
      unfold checkAnchorRight
      rw [if_pos (.inl ignored), if_pos (.inl (rightCh ▸ ignored))]
  have sameLeft (buffer : List UInt8) (start specialcnt : Nat) :
      checkAnchorLeft buffer b.specialTable a.anchorLeft start specialcnt =
        checkAnchorLeft buffer b.specialTable b.anchorLeft start
          specialcnt := by
    cases ignored : a.anchorLeft.ch.hasIgnoreBit with
    | false => rw [sides.left ignored]
    | true =>
      unfold checkAnchorLeft
      rw [if_pos ignored, if_pos (leftCh ▸ ignored)]
  intro buffer offset fileoffset _
  unfold sideChecks
  rw [texts]
  simp only [sameRight, sameLeft, sameBoundary, prefixes, specials]
  by_cases isSpecial : b.anchorLeft.ch = .special
  · rw [sides.hasPrefix (leftCh.trans isSpecial)]
  · simp only [@checkAnchorLeft_count b.anchorLeft isSpecial _ _ _ _ 0]

end

end

section

variable {base : AcRoot} {word : Nat → List UInt8}
variable {own : List UInt8 → List Nat} {group : Nat → List Nat}

theorem AcInv.mem_group_iff
    (inv : AcInv base word own group)
    (isHead : h ∈ own w) :
    q ∈ group h ↔ Reaches base.nextSame h q :=
  (inv.groups.chain isHead).mem_iff_reaches _

/-- The members of a group are equal. -/
theorem AcInv.same_of_members
    (inv : AcInv base word own group)
    (isHead : h ∈ own w)
    (pMember : p ∈ group h)
    (qMember : q ∈ group h) :
    p = q ∨ samePatt (base.patt p) (base.patt q) = some true := by
  rcases inv.groups.same isHead pMember with pHead | pSame
  · rcases inv.groups.same isHead qMember with qHead | qSame
    · exact .inl (pHead.trans qHead.symm)
    · rw [pHead]
      exact .inr qSame
  rcases inv.groups.same isHead qMember with qHead | qSame
  · rw [qHead]
    exact .inr (samePatt_symm pSame)
  · exact .inr (samePatt_trans (samePatt_symm pSame) qSame)

/-- Equal patterns are in one group. -/
theorem AcInv.group_of_same
    (inv : AcInv base word own group)
    (pInside : p < base.acPattable.length)
    (qInside : q < base.acPattable.length)
    (same : samePatt (base.patt p) (base.patt q) = some true) :
    ∃ w h, h ∈ own w ∧ p ∈ group h ∧ q ∈ group h := by
  obtain ⟨v, h, hHead, pMember⟩ := inv.groups.covers pInside
  obtain ⟨w, k, kHead, qMember⟩ := inv.groups.covers qInside
  have headSame : samePatt (base.patt h) (base.patt q) = some true := by
    rcases inv.groups.same hHead pMember with isHead | pSame
    · rw [← isHead]
      exact same
    · exact samePatt_trans pSame same
  have headsSame : samePatt (base.patt h) (base.patt k) = some true := by
    rcases inv.groups.same kHead qMember with isHead | qSame
    · rw [← isHead]
      exact headSame
    · exact samePatt_trans headSame (samePatt_symm qSame)
  have sameKey : v = w := by
    rw [← inv.lists.key hHead, ← inv.lists.key kHead]
    unfold acKey
    rw [(samePatt_true_iff.mp headsSame).1]
  subst sameKey
  have isOne : h = k := by
    by_contra different
    exact inv.separate hHead kHead different headsSame
  rw [← isOne] at qMember
  exact ⟨v, h, hHead, pMember, qMember⟩

end

theorem placed_depth_le
    (maxdepth : Nat)
    (patt : AcPatt) :
    (placed maxdepth patt).depth ≤ patt.pattern.length :=
  le_trans (leadingBytes_length_le _) (by rw [length_take]; exact min_le_right _ _)

/-- Patterns on one `next_same` list accept the same places. -/
def GroupsAgree (loaded : AcRoot) : Prop :=
  ∀ p q, Reaches loaded.nextSame p q → ∀ buffer offset fileoffset,
      (acFindmatch buffer offset fileoffset (loaded.patt p)).isSome =
        (acFindmatch buffer offset fileoffset (loaded.patt q)).isSome

/-- A scan reports a pattern only where the pattern itself is accepted. -/
def ReportsOwn (built : AcRoot) : Prop :=
  ∀ buffer args hits, acHits built buffer args = .ok hits → ∀ hit ∈ hits,
      acFindmatch buffer hit.bp (args.realoff hit.bp (built.patt hit.pt))
        (built.patt hit.pt) = some hit.matchend

/-- If groups agree, each pattern is reported for itself. -/
theorem reportsOwn_of_groupsAgree
    {base built : AcRoot}
    {word : Nat → List UInt8}
    {own : List UInt8 → List Nat}
    {group : Nat → List Nat}
    (inv : AcInv base word own group)
    (done : Built base built word own)
    (formed : ∀ patt ∈ base.acPattable, patt.Formed)
    (agree : GroupsAgree base) :
    ReportsOwn built := by
  intro buffer args hits scans hit mem
  rw [acHits_eq inv done] at scans
  cases scans
  obtain ⟨i, -, inFull, isHit⟩ := mem_hitsOf.mp mem
  obtain ⟨w, -, isOwn⟩ := own_of_mem_full inFull
  obtain ⟨-, inGroup, -, -, found⟩ := mem_hitsAt.mp isHit
  have samePatts (p : Nat) : built.patt p = base.patt p := by
    unfold AcRoot.patt
    rw [done.tables.pattable]
  rw [samePatts] at found ⊢
  rcases inv.groups.same isOwn inGroup with isHead | same
  · rw [isHead]
    exact found
  have isFormed {p : Nat} (inside : p < base.acPattable.length) : (base.patt p).Formed := by
    rw [base.patt_eq_getElem inside]
    exact formed _ (getElem_mem inside)
  have headInside := inv.lists.valid isOwn
  have memberInside := inv.groups.valid isOwn inGroup
  obtain ⟨patterns, prefixes, -⟩ := samePatt_true_iff.mp same
  have depth : (base.patt hit.head).depth = (base.patt hit.pt).depth := by
    rw [inv.lists.depth headInside, inv.lists.depth memberInside]
    unfold acKey
    rw [patterns]
  have sameOffset : args.realoff hit.bp (base.patt hit.head) =
      args.realoff hit.bp (base.patt hit.pt) := by
    unfold ScanArgs.realoff
    rw [prefixes]
  have accepted := agree hit.head hit.pt ((inv.mem_group_iff isOwn).mp inGroup) buffer hit.bp
    (args.realoff hit.bp (base.patt hit.head))
  rw [found] at accepted
  rw [sameOffset] at found accepted
  obtain ⟨matchend, foundOwn⟩ := Option.isSome_iff_exists.mp accepted.symm
  obtain ⟨_, headText⟩ := acFindmatch_eq_some found
  obtain ⟨_, ownText⟩ := acFindmatch_eq_some foundOwn
  rw [matchPattern_of_same (isFormed headInside) (isFormed memberInside) depth
    same, ownText] at headText
  cases headText
  exact foundOwn

section

variable {loaded : AcRoot} {word : Nat → List UInt8} {own : List UInt8 → List Nat}
  {group : Nat → List Nat} {maxdepth : Nat} {patts : List AcPatt}

/-- Storing a pattern changes its depth only. -/
theorem AcPatt.Formed.placed
    (formed : patt.Formed) :
    (placed maxdepth patt).Formed :=
  ⟨formed.prefixless, formed.counted⟩

/-- If the same patterns have the same flags and anchors, groups agree. -/
theorem groupsAgree_of_sameSides
    (inv : AcInv loaded word own group)
    (table : loaded.acPattable = patts.map (placed maxdepth))
    (formed : ∀ patt ∈ patts, patt.Formed)
    (sides : ∀ a ∈ patts, ∀ b ∈ patts, samePatt a b = some true → SameSides a b) :
    GroupsAgree loaded := by
  have stored {p : Nat} (inside : p < loaded.acPattable.length) :
      ∃ patt ∈ patts, loaded.patt p = placed maxdepth patt := by
    have isEntry := getElem_mem inside
    rw [← loaded.patt_eq_getElem inside, table] at isEntry
    obtain ⟨patt, mem, isPatt⟩ := mem_map.mp isEntry
    exact ⟨patt, mem, isPatt.symm⟩
  intro p q reaches buffer offset fileoffset
  by_cases pInside : p < loaded.acPattable.length
  · obtain ⟨w, h, isHead, pMember⟩ := inv.groups.covers pInside
    have qMember : q ∈ group h := (inv.mem_group_iff isHead).mpr
        (((inv.mem_group_iff isHead).mp pMember).trans reaches)
    have qInside := inv.groups.valid isHead qMember
    rcases inv.same_of_members isHead pMember qMember with isSame | same
    · rw [isSame]
    obtain ⟨a, aMember, isA⟩ := stored pInside
    obtain ⟨b, bMember, isB⟩ := stored qInside
    rw [isA, isB] at same ⊢
    have aFormed : (placed maxdepth a).Formed := (formed a aMember).placed
    have bFormed : (placed maxdepth b).Formed := (formed b bMember).placed
    have samePattern : a.pattern = b.pattern := (samePatt_true_iff.mp same).1
    have sameDepth : (placed maxdepth a).depth = (placed maxdepth b).depth := by
      unfold placed acKey
      rw [samePattern]
    have agree := SidesAgree.of_same aFormed bFormed sameDepth same
      { sides a aMember b bMember same with }
    exact (sidesAgree_iff aFormed bFormed sameDepth same).mp agree buffer offset fileoffset
  · -- behind the table no pattern has a successor
    have unlinked := inv.groups.fresh p (not_lt.mp pInside)
    rcases Relation.ReflTransGen.cases_head reaches with isSame | ⟨later, link, -⟩
    · rw [isSame]
    · rw [unlinked] at link
      cases link

/-- If groups agree, plain patterns that are the same have the same flags and anchors. -/
theorem sameSides_of_groupsAgree
    {a b : AcPatt}
    (inv : AcInv loaded word own group)
    (table : loaded.acPattable = patts.map (placed maxdepth))
    (agree : GroupsAgree loaded)
    (aMember : a ∈ patts)
    (bMember : b ∈ patts)
    (aPlain : a.Plain)
    (bPlain : b.Plain)
    (same : samePatt a b = some true) :
    SameSides a b := by
  have place {patt : AcPatt} (mem : patt ∈ patts) :
      ∃ p, p < loaded.acPattable.length ∧ loaded.patt p = placed maxdepth patt := by
    have isEntry : placed maxdepth patt ∈ loaded.acPattable := by
      rw [table]
      exact mem_map_of_mem mem
    obtain ⟨p, inside, isPatt⟩ := getElem_of_mem isEntry
    exact ⟨p, inside, (loaded.patt_eq_getElem inside).trans isPatt⟩
  obtain ⟨p, pInside, isA⟩ := place aMember
  obtain ⟨q, qInside, isB⟩ := place bMember
  have samePlaced : samePatt (loaded.patt p) (loaded.patt q) = some true := by
    rw [isA, isB]
    exact same
  obtain ⟨w, h, isHead, pMember, qMember⟩ := inv.group_of_same pInside qInside samePlaced
  have sides : SameSides (placed maxdepth a) (placed maxdepth b) := by
    refine SameSides.of_agree { aPlain with } { bPlain with } same (placed_depth_le maxdepth a)
      (placed_depth_le maxdepth b) fun buffer offset fileoffset => ?_
    rw [← isA, ← isB, ← agree h p ((inv.mem_group_iff isHead).mp pMember),
      ← agree h q ((inv.mem_group_iff isHead).mp qMember)]
  exact { sides with }

end

/--
For all patterns that are inserted into a fresh matcher: what a scan reports is
determined by its hits.  If all inserted patterns that are compared as the same have the
same flags and anchors, the patterns of one `next_same` list accept the same places, and
every hit is accepted by the pattern itself.  Plain patterns of one list accept the same
places only if their flags and anchors are the same.
-/
theorem next_same_reports_own_of_same_sides
    (type mindepth maxdepth : Nat)
    (prefiltering : Bool)
    (patts : List AcPatt)
    (formed : ∀ patt ∈ patts, patt.Formed)
    (loaded : AcRoot)
    (loads :
      acLoad (cliAcInit (freshRoot type) mindepth maxdepth prefiltering) patts =
        some (.ok loaded)) :
    ∃ built, cliAcBuildtrie loaded = some built ∧
      (∀ buffer args, ∃ hits, acHits built buffer args = .ok hits ∧
        ∀ state, cliAcScanbuff built buffer args state =
          scanReturn args (run (reportHit built args) hits { state with type := 0 })) ∧
      ((∀ a ∈ patts, ∀ b ∈ patts, samePatt a b = some true → SameSides a b) →
        GroupsAgree loaded ∧ ReportsOwn built) ∧
      (GroupsAgree loaded →
        ∀ a ∈ patts, ∀ b ∈ patts, a.Plain → b.Plain → samePatt a b = some true →
          SameSides a b) := by
  have startInv := cliAcInit_inv type mindepth maxdepth prefiltering
  obtain ⟨⟨word, own, group, inv⟩, -, -, table⟩ := acLoad_inv patts startInv loads
  replace table : loaded.acPattable = patts.map (placed maxdepth) := table
  obtain ⟨built, builds, done⟩ := cliAcBuildtrie_built inv
  have tableFormed : ∀ patt ∈ loaded.acPattable, patt.Formed := by
    intro patt mem
    rw [table] at mem
    obtain ⟨written, isWritten, rfl⟩ := mem_map.mp mem
    exact (formed written isWritten).placed
  refine ⟨built, builds, ?_, ?_, ?_⟩
  · intro buffer args
    exact ⟨_, acHits_eq inv done buffer args, cliAcScanbuff_eq inv done buffer args⟩
  · intro sides
    have agree := groupsAgree_of_sameSides inv table formed sides
    exact ⟨agree, reportsOwn_of_groupsAgree inv done tableFormed agree⟩
  · intro agree a aMember b bMember aPlain bPlain same
    exact sameSides_of_groupsAgree inv table agree aMember bMember aPlain bPlain same

/-- `616263` at any offset. -/
def plainPatt : AcPatt :=
  { pattern := [.char 0x61, .char 0x62, .char 0x63]
    virname := ['A']
    offdata := { type := .any }
    offsetMin := offAny
    offsetMax := offAny }

/-- `(B)616263` at any offset. -/
def boundaryPatt : AcPatt := { plainPatt with virname := ['B'], boundary := { left := true } }

theorem plainPatt_formed : plainPatt.Formed := ⟨fun _ => rfl, rfl⟩

/-- Two signatures with the same text and no flags share their verdict. -/
theorem next_same_reports_own_plainPatt : ∃ loaded built, acLoad (cliAcInit (freshRoot 0) 2 3 true)
          [plainPatt, { plainPatt with virname := ['C'] }] =
        some (.ok loaded) ∧
      cliAcBuildtrie loaded = some built ∧
      GroupsAgree loaded ∧ ReportsOwn built := by
  have formed : ∀ patt ∈ [plainPatt, { plainPatt with virname := ['C'] }],
        patt.Formed := by
    intro patt mem
    rcases mem_pair.mp mem with rfl | rfl
    · exact plainPatt_formed
    · exact ⟨fun _ => rfl, rfl⟩
  obtain ⟨loaded, loads⟩ := acLoad_succeeds [plainPatt, { plainPatt with virname := ['C'] }]
    (cliAcInit_inv 0 2 3 true) (by decide)
  obtain ⟨built, builds, -, agrees, -⟩ :=
    next_same_reports_own_of_same_sides 0 2 3 true _ formed loaded loads
  refine ⟨loaded, built, loads, builds, agrees ?_⟩
  intro a aMember b bMember same
  rcases mem_pair.mp aMember with rfl | rfl <;>
    rcases mem_pair.mp bMember with rfl | rfl <;>
    exact ⟨rfl, fun _ => rfl, fun _ => rfl, fun _ => rfl⟩

/--
Behind `78` there is no word boundary, but `(B)616263` is reported there because
it is in the group of `616263`.
-/
theorem next_same_reports_boundaryPatt_inside_word :
    ∃ loaded built hits, acLoad (cliAcInit (freshRoot 0) 2 3 false) [plainPatt, boundaryPatt] =
        some (.ok loaded) ∧
      cliAcBuildtrie loaded = some built ∧
      acHits built [0x78, 0x61, 0x62, 0x63] {} = .ok hits ∧
      (⟨0, 1, 1, 4⟩ : Hit) ∈ hits ∧
      built.patt 1 = placed 3 boundaryPatt ∧
      acFindmatch [0x78, 0x61, 0x62, 0x63] 1 1 (built.patt 1) = none := by
  have loads : ∃ loaded, acLoad (cliAcInit (freshRoot 0) 2 3 false)
            [plainPatt, boundaryPatt] = some (.ok loaded) ∧
          loaded.nextSame 0 = some 1 ∧
          ∀ q, loaded.nextSame q ≠ some 0 := by
    refine ⟨_, rfl, rfl, ?_⟩
    intro q
    by_cases isHead : q = 0
    · rw [isHead]
      decide
    show (Function.update (Function.update (fun _ => none) 1 none) 0
      (some 1) : Nat → Option Nat) q ≠ some 0
    rw [Function.update_of_ne isHead]
    by_cases isMember : q = 1
    · rw [isMember]
      decide
    · rw [Function.update_of_ne isMember]
      decide
  obtain ⟨loaded, loads, link, unlinked⟩ := loads
  have startInv := cliAcInit_inv 0 2 3 false
  obtain ⟨⟨word, own, group, inv⟩, -, maxdepth, table⟩ := acLoad_inv _ startInv loads
  replace table : loaded.acPattable = [placed 3 plainPatt, placed 3 boundaryPatt] := table
  obtain ⟨built, builds, done⟩ := cliAcBuildtrie_built inv
  have isPatt (p : Nat) : built.patt p = [placed 3 plainPatt, placed 3 boundaryPatt].getD p
          { pattern := [] } := by
    rw [AcRoot.patt, done.tables.pattable, table]
  have isHead : loaded.IsHead 0 := ⟨by rw [table]; decide, unlinked⟩
  obtain ⟨w, isOwn⟩ := inv.isHead_iff.mp isHead
  have key := inv.lists.key isOwn
  rw [AcRoot.patt, table, maxdepth] at key
  have inGroup : 1 ∈ group 0 := (inv.mem_group_iff isOwn).mpr (Relation.ReflTransGen.single link)
  refine ⟨loaded, built, _, loads, builds, acHits_eq inv done _ _, ?_, isPatt 1, ?_⟩
  · refine mem_hitsOf.mpr ⟨3, by decide, ?_, ?_⟩
    · refine (mem_full _).mpr (.inl ⟨w, ?_, ?_, isOwn⟩)
      · rw [← key]
        decide
      · rw [← key]
        decide
    refine mem_hitsAt.mpr ⟨rfl, inGroup, ?_, ?_, ?_⟩
    · rw [isPatt]
      rfl
    · unfold skipsHead
      rw [isPatt, done.tables.nextSame, link]
      rfl
    · rw [isPatt]
      decide
  · rw [isPatt]
    decide

end LibClamav.Ac
