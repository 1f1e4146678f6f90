import LibClamav.BmScan

namespace LibClamav.Md5

open Bm List Bool

/-!
# The MD5 check at the end of `cli_fmap_scandesc`

Both digest databases are Boyer-Moore tables whose patterns are digests with
the offset 0.  `cli_bm_scanbuff` returns the first pattern with the digest of
the file, and only its size is compared; the other entries of the same digest
are not looked at.
-/

/-- The sixteen bytes of an MD5 sum. -/
def Digest : Type := { bytes : List UInt8 // bytes.length = 16 }

/-- An entry of a `.hdb` or `.fp` file; `size` is what `atoi` makes of its field. -/
structure Md5Entry where
  digest : Digest
  size : Nat
  virname : List Char := []
  fitsWord : size < 2 ^ 32

/-- The pattern that `cli_loadmd5` allocates for an entry. -/
def Md5Entry.patt (entry : Md5Entry) : BmPatt :=
  { pattern := entry.digest.val
    length := 16
    filesize := entry.size
    virname := entry.virname }

/-- `cli_md5db_init` -/
def cliMd5dbInit : BmRoot := cliBmInit { bmShift := fun _ => 0, bmSuffix := fun _ => [] }

/-- The loop of `cli_loadmd5`; no matcher is a null pointer. -/
def cliLoadmd5 (db : Option BmRoot) : List Md5Entry → Except ClError (Option BmRoot)
  | [] => .ok db
  | entry :: rest =>
    match cliBmAddpatt (db.getD cliMd5dbInit) entry.patt ['0'] with
    | .error code => .error code
    | .ok added => cliLoadmd5 (some added) rest

/-- `cli_bm_scanbuff(digest, 16, ..., db, 0, NULL, NULL)` -/
def scanDigest (db : Option BmRoot) (digest : Digest) : BmResult :=
  match db with
  | none => .clean
  | some root => (cliBmScanbuff root { len := 0 } digest.val 0 none).1

/-- The condition under which `cli_fmap_scandesc` returns `CL_VIRUS` for a digest. -/
def md5Check (hdb fp : Option BmRoot) (digest : Digest) (len : Nat) : Bool :=
  match scanDigest hdb digest with
  | .virus patt =>
    patt.filesize == len &&
      match scanDigest fp digest with
      | .virus fpPatt => fpPatt.filesize != len
      | _ => true
  | _ => false

/-- A pattern of the table that was made from an entry. -/
structure StoredEntry (p : BmPatt) (entry : Md5Entry) : Prop where
  holds : Holds p entry.digest.val
  absolute : p.offdata.type = .absolute
  offsetMin : p.offsetMin = 0
  offsetMax : p.offsetMax = 0
  boundaryEol : p.boundaryEol = false
  filesize : p.filesize = entry.size

variable {p : BmPatt} {entry : Md5Entry}

theorem StoredEntry.of_core
    {q : BmPatt}
    (same : p.core = q.core)
    (stored : StoredEntry q entry) :
    StoredEntry p entry := by
  have holds := stored.holds.of_core same
  cases p
  cases q
  cases same
  exact ⟨holds, stored.absolute, stored.offsetMin, stored.offsetMax,
    stored.boundaryEol, stored.filesize⟩

/-- A digest database that holds some entries. -/
def Loaded (db : Option BmRoot) (entries : List Md5Entry) : Prop :=
  (db = none → entries = []) ∧ Table StoredEntry (db.getD cliMd5dbInit) entries

theorem loaded_none : Loaded none [] := ⟨fun _ => rfl, cliBmInit_table _ _⟩

/-- The range of the offset `0`. -/
def zeroOffset : Offset := ⟨{ type := .absolute }, 0, 0⟩

theorem placedPatt_storedEntry
    (root : BmRoot)
    (entry : Md5Entry) :
    StoredEntry (placedPatt root entry.patt zeroOffset) entry := by
  have whole := entry.digest.property.symm
  have longEnough : bmMinLength ≤ entry.patt.length := by
    show 3 ≤ 16
    omega
  have holds := placedPatt_holds root zeroOffset rfl whole longEnough
  obtain ⟨-, boundaryEol, filesize, -⟩ := chooseBlock_keeps root entry.patt
  refine ⟨holds, rfl, ?_, rfl, boundaryEol, filesize⟩
  show (if root.bmOffmode = true ∧ ¬ OffType.absolute = OffType.absolute then
    root.bmPatterns else 0) = 0
  rw [if_neg fun ⟨_, differs⟩ => differs rfl]

/-- All entries are loaded. -/
theorem cliLoadmd5_loaded
    (entries : List Md5Entry)
    (db : Option BmRoot)
    (before : List Md5Entry)
    (loaded : Loaded db before) :
    ∃ final,
      cliLoadmd5 db entries = .ok final ∧ Loaded final (before ++ entries) := by
  induction entries generalizing db before with
  | nil =>
    rw [append_nil]
    exact ⟨db, rfl, loaded⟩
  | cons entry rest ih =>
    obtain ⟨-, table⟩ := loaded
    have longEnough : bmMinLength ≤ entry.patt.length := by
      show 3 ≤ 16
      omega
    have decodes : cliCaloff ['0'] (db.getD cliMd5dbInit).type = .ok zeroOffset := by rfl
    obtain ⟨added, adds, changes⟩ := cliBmAddpatt_adds longEnough decodes
    have bigger : Loaded (some added) (before ++ [entry]) := by
      refine ⟨nofun, ?_⟩
      exact table.insert changes (fun p q other => StoredEntry.of_core)
        (chooseBlock_keeps _ entry.patt).2.2.2
        (placedPatt_storedEntry _ entry)
    obtain ⟨final, loads, finalLoaded⟩ := ih (some added) (before ++ [entry]) bigger
    refine ⟨final, ?_, ?_⟩
    · rw [cliLoadmd5, adds]
      exact loads
    · rw [append_assoc] at finalLoaded
      exact finalLoaded

/-- The bytes a pattern of the table stands for. -/
def fullBytes (p : BmPatt) : List UInt8 :=
  if p.prefixLength ≠ 0 then p.prefixBytes else p.pattern

instance (root : BmRoot) (p : BmPatt) : Decidable (Hidden root p) :=
  inferInstanceAs (Decidable (_ ∧ _))

/--
The visible patterns of a digest, block by block of the digest, and within a
bucket from its head on.
-/
def ranked
    (root : BmRoot)
    (digest : Digest) :
    List BmPatt := (range 16).flatMap fun block =>
    (root.bmSuffix (bmHashAt digest.val block)).filter fun p =>
      p.prefixLength == block && fullBytes p == digest.val && !decide (Hidden root p)

variable {digest : Digest}

/-- A pattern matches the digest it stands for. -/
theorem textMatches_digest_iff
    {i : Nat}
    (stored : StoredEntry p entry) :
    textMatches digest.val i p = true ↔ p.prefixLength = i ∧ fullBytes p = digest.val := by
  have sixteen := digest.property
  have entrySixteen := entry.digest.property
  have bytes : fullBytes p = entry.digest.val := stored.holds.bytes
  rw [textMatches_iff stored.holds, stored.boundaryEol, bytes]
  constructor
  · rintro ⟨prefixFits, standsThere, -⟩
    have lengths := standsThere.length_le
    rw [length_drop] at lengths
    have atStart : i - p.prefixLength = 0 := by omega
    rw [atStart, drop_zero] at standsThere
    exact ⟨by omega, standsThere.eq_of_length (by omega)⟩
  · rintro ⟨rfl, same⟩
    rw [Nat.sub_self, drop_zero, same]
    exact ⟨le_rfl, prefix_refl _, nofun⟩

variable {root : BmRoot} {entries : List Md5Entry}

/-- The hits at a block are its patterns. -/
theorem hitsAt_digest
    (table : Table StoredEntry root entries)
    (digest : Digest)
    (block : Nat) :
    (hitsAt root digest.val block).map Prod.snd =
      (root.bmSuffix (bmHashAt digest.val block)).filter fun p =>
        p.prefixLength == block && fullBytes p == digest.val && !decide (Hidden root p) := by
  -- for a matching pattern of the bucket, being skipped is being hidden
  have sameTest (p : BmPatt) (inChain : p ∈ root.bmSuffix (bmHashAt digest.val block)) :
      (p.prefixLength == block && fullBytes p == digest.val && !decide (Hidden root p)) = true ↔
        (block + bmMinLength ≤ digest.val.length ∧ skipsChain digest.val block
            (root.bmSuffix (bmHashAt digest.val block)) = false) ∧
        (p.pattern0 == byteAt digest.val block && textMatches digest.val block p) = true := by
    obtain ⟨hash, entry, -, stored⟩ := table.sound _ p inChain
    simp only [and_eq_true, beq_iff_eq, not_eq_true', decide_eq_false_iff_not]
    rw [← textMatches_digest_iff stored]
    constructor
    · rintro ⟨isMatch, visible⟩
      obtain ⟨fits, sameHash, byte⟩ := stored.holds.block_of_textMatches isMatch
      have longBlock := stored.holds.block
      rw [← skipsChain_eq_true_iff table sameHash byte, not_eq_true] at visible
      exact ⟨⟨by omega, visible⟩, byte, isMatch⟩
    rintro ⟨⟨-, passes⟩, byte, isMatch⟩
    refine ⟨isMatch, ?_⟩
    rw [← skipsChain_eq_true_iff table hash byte, passes]
    exact false_ne_true
  unfold hitsAt
  split_ifs with guards
  · rw [map_map]
    refine (map_id' _).trans (filter_congr ?_)
    intro p inChain
    rw [Bool.eq_iff_iff, sameTest p inChain]
    exact ⟨fun good => ⟨guards, good⟩, fun good => good.2⟩
  · refine (filter_eq_nil_iff.mpr ?_).symm
    intro p inChain good
    exact guards ((sameTest p inChain).mp good).1

/-- The first entry of the digest is reported. -/
theorem scanDigest_some
    (table : Table StoredEntry root entries)
    (digest : Digest) :
    scanDigest (some root) digest =
      match (ranked root digest).head? with
      | some p => .virus p
      | none => .clean := by
  have judges : ∀ hit ∈ hits root digest.val, ∀ info,
      verdict { len := 0 } root.type 0 none hit info =
        (if (fun _ => true) hit then .virus else .next, info) := by
    intro hit mem info
    obtain ⟨h, inChain⟩ := mem_bucket_of_mem_hits mem
    obtain ⟨-, entry, -, stored⟩ := table.sound h hit.2 inChain
    obtain ⟨-, -, isMatch⟩ := (mem_hits_iff table stored.holds).mp mem
    have atStart := ((textMatches_digest_iff stored).mp isMatch).1
    unfold verdict offRangeAllows
    simp only [↓reduceIte, stored.absolute, stored.offsetMin,
      stored.offsetMax, atStart, Nat.zero_add, Nat.sub_self]
    rfl
  have order : (hits root digest.val).map Prod.snd = ranked root digest := by
    unfold hits ranked
    rw [map_flatMap, digest.property]
    exact congrArg (fun f => (range 16).flatMap f) (funext (hitsAt_digest table digest))
  have found := judgeAll_of_pure { len := 0 } root.type 0 none (hits root digest.val) {} judges
  unfold scanDigest
  simp only
  rw [cliBmScanbuff_none table, found, ← order]
  cases hits root digest.val with
  | nil | cons hit rest => rfl

/-- The entries list a digest with a size. -/
def Lists (entries : List Md5Entry) (digest : Digest) (len : Nat) : Prop :=
  ∃ entry ∈ entries, entry.digest = digest ∧ entry.size = len

/-- The first pattern of a digest in a database has a size. -/
def LeadsWith (db : Option BmRoot) (digest : Digest) (len : Nat) : Prop :=
  ∃ root ∈ db, ∃ p ∈ (ranked root digest).head?, p.filesize = len

variable {db : Option BmRoot} {len : Nat}

/-- So it is decided by the size that leads. -/
theorem scanDigest_virus_iff
    (loaded : Loaded db entries) :
    (∃ p, scanDigest db digest = .virus p ∧ p.filesize = len) ↔ LeadsWith db digest len := by
  obtain ⟨-, table⟩ := loaded
  cases db with
  | none =>
    constructor
    · rintro ⟨p, reported, -⟩
      cases reported
    · rintro ⟨root, isNone, -⟩
      cases isNone
  | some root =>
    rw [Option.getD_some] at table
    rw [scanDigest_some table]
    constructor
    · rintro ⟨p, reported, size⟩
      cases first : (ranked root digest).head? with
      | none =>
        rw [first] at reported
        cases reported
      | some q =>
        rw [first] at reported
        cases reported
        exact ⟨root, rfl, p, first, size⟩
    · rintro ⟨_, ⟨⟩, p, first, size⟩
      refine ⟨p, ?_, size⟩
      rw [Option.mem_def.mp first]

/-- A file is reported if it leads in one list and not in the other. -/
theorem md5Check_iff
    {hdb fp : Option BmRoot}
    {hdbEntries fpEntries : List Md5Entry}
    (hdbLoaded : Loaded hdb hdbEntries)
    (fpLoaded : Loaded fp fpEntries) :
    md5Check hdb fp digest len = true ↔ LeadsWith hdb digest len ∧ ¬ LeadsWith fp digest len := by
  rw [← scanDigest_virus_iff hdbLoaded, ← scanDigest_virus_iff fpLoaded]
  unfold md5Check
  cases scanDigest hdb digest with
  | clean | error code => simp
  | virus p =>
    cases scanDigest fp digest with
    | clean | error code | virus q => simp

theorem entry_of_mem_ranked
    (table : Table StoredEntry root entries)
    (mem : p ∈ ranked root digest) :
    ∃ entry ∈ entries, entry.digest = digest ∧ entry.size = p.filesize := by
  obtain ⟨block, -, inBucket⟩ := mem_flatMap.mp mem
  obtain ⟨inChain, good⟩ := mem_filter.mp inBucket
  obtain ⟨-, entry, isEntry, stored⟩ := table.sound _ p inChain
  simp only [and_eq_true, beq_iff_eq] at good
  have bytes : fullBytes p = entry.digest.val := stored.holds.bytes
  refine ⟨entry, isEntry, Subtype.ext ?_, stored.filesize.symm⟩
  rw [← bytes]
  exact good.1.2

/-- What leads is listed. -/
theorem LeadsWith.lists
    (loaded : Loaded db entries)
    (leads : LeadsWith db digest len) :
    Lists entries digest len := by
  obtain ⟨root, isRoot, p, first, size⟩ := leads
  cases isRoot
  obtain ⟨entry, isEntry, sameDigest, sameSize⟩ :=
    entry_of_mem_ranked loaded.2 (mem_of_mem_head? first)
  exact ⟨entry, isEntry, sameDigest, sameSize.trans size⟩

/-- All entries of a digest have one size. -/
def OneSize (entries : List Md5Entry) (digest : Digest) : Prop :=
  ∀ first ∈ entries, ∀ second ∈ entries, first.digest = digest → second.digest = digest →
      first.size = second.size

/-- No bucket is long enough for its count to wrap around. -/
def ShortChains (db : Option BmRoot) : Prop := ∀ root ∈ db, ∀ h, (root.bmSuffix h).length ≤ 2 ^ 16

/-- What is listed with one size leads. -/
theorem Lists.leadsWith
    (lists : Lists entries digest len)
    (loaded : Loaded db entries)
    (oneSize : OneSize entries digest)
    (short : ShortChains db) :
    LeadsWith db digest len := by
  obtain ⟨entry, isEntry, sameDigest, size⟩ := lists
  obtain ⟨noneEmpty, table⟩ := loaded
  cases db with
  | none =>
    rw [noneEmpty rfl] at isEntry
    cases isEntry
  | some root =>
    obtain ⟨h, p, inChain, stored⟩ := table.complete entry isEntry
    have hash := (table.sound h p inChain).1
    subst hash
    have visible : ¬ Hidden root p := fun hidden =>
      absurd (hidden.length_gt inChain) (not_lt.mpr (short root rfl _))
    have isMatch : textMatches digest.val p.prefixLength p = true := by
      rw [textMatches_digest_iff stored, ← sameDigest]
      exact ⟨rfl, stored.holds.bytes⟩
    have sameHash := (stored.holds.block_of_textMatches isMatch).2.1
    have isRanked : p ∈ ranked root digest := by
      have split := stored.holds.split
      have block := stored.holds.block
      rw [entry.digest.property] at split
      unfold bmMinLength at block
      refine mem_flatMap.mpr ⟨p.prefixLength, mem_range.mpr (by omega), ?_⟩
      refine mem_filter.mpr ⟨?_, ?_⟩
      · rw [← sameHash]
        exact inChain
      · simp only [and_eq_true, beq_iff_eq, not_eq_true', decide_eq_false_iff_not]
        exact ⟨⟨trivial, ((textMatches_digest_iff stored).mp isMatch).2⟩, visible⟩
    obtain ⟨first, isFirst⟩ := Option.isSome_iff_exists.mp
      (isSome_head?.mpr (ne_nil_of_mem isRanked))
    obtain ⟨other, isOther, otherDigest, otherSize⟩ :=
      entry_of_mem_ranked table (mem_of_mem_head? isFirst)
    refine ⟨root, rfl, first, isFirst, ?_⟩
    rw [← otherSize, ← size]
    exact oneSize other isOther entry isEntry otherDigest sameDigest

/--
The first pattern of a digest decides as all its entries would: in the `.hdb`
table it has the size where an entry has it, unless a `.fp` entry has it, too,
and then the first pattern in the `.fp` table has it.
-/
def FirstDecides
    (hdb fp : Option BmRoot)
    (hdbEntries fpEntries : List Md5Entry)
    (digest : Digest)
    (len : Nat) :
    Prop :=
  (Lists hdbEntries digest len → ¬ Lists fpEntries digest len → LeadsWith hdb digest len) ∧
    (LeadsWith hdb digest len → Lists fpEntries digest len → LeadsWith fp digest len)

/--
The check reports a file exactly if a `.hdb` entry and no `.fp` entry has its
digest and its size, precisely when the first patterns of the digest decide as
all its entries would; they do if each of the lists has one size for the digest
and no bucket has more than 65536 patterns.
-/
theorem md5_check_right_iff_first_decides
    (hdbEntries fpEntries : List Md5Entry) :
    ∃ hdb fp, cliLoadmd5 none hdbEntries = .ok hdb ∧ cliLoadmd5 none fpEntries = .ok fp ∧
        ∀ digest len, ((md5Check hdb fp digest len = true ↔
              Lists hdbEntries digest len ∧ ¬ Lists fpEntries digest len) ↔
            FirstDecides hdb fp hdbEntries fpEntries digest len) ∧
          (OneSize hdbEntries digest → OneSize fpEntries digest → ShortChains hdb → ShortChains fp →
              FirstDecides hdb fp hdbEntries fpEntries digest len) := by
  obtain ⟨hdb, hdbLoads, hdbLoaded⟩ := cliLoadmd5_loaded hdbEntries none [] loaded_none
  obtain ⟨fp, fpLoads, fpLoaded⟩ := cliLoadmd5_loaded fpEntries none [] loaded_none
  rw [nil_append] at hdbLoaded fpLoaded
  refine ⟨hdb, fp, hdbLoads, fpLoads, ?_⟩
  intro digest len
  have hdbSound : LeadsWith hdb digest len → Lists hdbEntries digest len :=
    LeadsWith.lists hdbLoaded
  have fpSound : LeadsWith fp digest len → Lists fpEntries digest len := LeadsWith.lists fpLoaded
  constructor
  · rw [md5Check_iff hdbLoaded fpLoaded]
    constructor
    · rintro ⟨reports, isReported⟩
      refine ⟨fun inHdb notInFp => (isReported ⟨inHdb, notInFp⟩).1, ?_⟩
      intro leads inFp
      by_contra fpSilent
      exact (reports ⟨leads, fpSilent⟩).2 inFp
    rintro ⟨finds, yields⟩
    constructor
    · rintro ⟨leads, fpSilent⟩
      exact ⟨hdbSound leads, fun inFp => fpSilent (yields leads inFp)⟩
    · rintro ⟨inHdb, notInFp⟩
      exact ⟨finds inHdb notInFp, fun leads => notInFp (fpSound leads)⟩
  · intro hdbOne fpOne hdbShort fpShort
    exact ⟨fun inHdb _ => inHdb.leadsWith hdbLoaded hdbOne hdbShort,
      fun _ inFp => inFp.leadsWith fpLoaded fpOne fpShort⟩

/-- The bytes from 0 to 15. -/
def countingDigest : Digest := ⟨[0, 1, 2, 3, 4, 5, 6, 7, 8, 9, 10, 11, 12, 13, 14, 15], rfl⟩

/-- Two entries of one digest, with the sizes 10 and 20. -/
def twoSizes : List Md5Entry := [{ digest := countingDigest, size := 10, fitsWord := by decide },
    { digest := countingDigest, size := 20, fitsWord := by decide }]

/-- A file of 20 bytes is not reported: the entry with the size 10 hides the one with 20. -/
theorem md5_check_misses_second_size :
    Lists twoSizes countingDigest 20 ∧ ¬ Lists [] countingDigest 20 ∧ ∃ hdb,
        cliLoadmd5 none twoSizes = .ok hdb ∧ cliLoadmd5 none [] = .ok none ∧
            md5Check hdb none countingDigest 20 = false := by
  refine ⟨⟨_, mem_cons_of_mem _ mem_cons_self, rfl, rfl⟩, ?_, ?_⟩
  · rintro ⟨entry, isEntry, -⟩
    cases isEntry
  · exact ⟨_, rfl, rfl, by decide +kernel⟩

end LibClamav.Md5
