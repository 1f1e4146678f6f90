import LibClamav.BmScan
import LibClamav.Separators
import LibClamav.UrlLookups

namespace LibClamav.Phish

open CheckedBuffer Bm List Separators

/-!
# The short circuit of `url_hash_match`

The first two lookups also look for a host key, and nothing else is looked up if
none is found.  The keys are hashes of hosts without a path, but the first
lookups are those of the deepest path; only where the path has no further slash
do they look for the keys of the list.
-/

variable {text host path : List UInt8} {count : Nat} {hosts : List (List UInt8)}
  {lengths whole slashes : List Nat}

section

variable {sha : List UInt8 → List UInt8} {lists : HashLists}

/-- The lists without host keys. -/
def HashLists.withoutPrefixes (lists : HashLists) : HashLists :=
  { lists with hostkeyPrefix := initHashLists.hostkeyPrefix }

/-- A text whose hash is on the list. -/
def Listed
    (sha : List UInt8 → List UInt8)
    (lists : HashLists)
    (text : List UInt8) :
    Prop :=
  ∃ patt, scanHash lists.sha256Hashes (sha text) = .virus patt

theorem fullMatch_of_not_listed
    (notListed : ¬ Listed sha lists text) :
    fullMatch sha lists text = .nodecision := by
  unfold fullMatch
  split
  · rename_i patt isVirus
    exact (notListed ⟨patt, isVirus⟩).elim
  · rfl

/-- The first lookup that decides. -/
def firstMatch
    (sha : List UInt8 → List UInt8)
    (lists : HashLists) :
    List (List UInt8) → PhishStatus
  | [] => .nodecision
  | text :: rest =>
    if fullMatch sha lists text ≠ .nodecision then
      fullMatch sha lists text
    else
      firstMatch sha lists rest

theorem firstMatch_of_not_listed
    {texts : List (List UInt8)}
    (notListed : ∀ text ∈ texts, ¬ Listed sha lists text) :
    firstMatch sha lists texts = .nodecision := by
  induction texts with
  | nil => rfl
  | cons text rest ih =>
    rw [firstMatch, fullMatch_of_not_listed (notListed text mem_cons_self),
      if_neg (not_not.mpr rfl)]
    exact ih fun other mem => notListed other (mem_cons_of_mem _ mem)

/-- Texts that are not listed match nothing. -/
theorem matchLoop_of_not_listed
    (texts : List (List UInt8))
    (count : Nat)
    (prefixMatched : Bool)
    (notListed : ∀ text ∈ texts, ¬ Listed sha lists text) :
    matchLoop sha lists texts count prefixMatched = .nodecision := by
  induction texts generalizing count prefixMatched with
  | nil => rfl
  | cons text rest ih =>
    have isFull : fullMatch sha lists text = .nodecision :=
      fullMatch_of_not_listed (notListed text mem_cons_self)
    have isRest := fun count prefixMatched =>
      ih count prefixMatched fun other mem => notListed other (mem_cons_of_mem _ mem)
    have isLookup (needPrefixmatch : Bool) :
        (hashMatch sha lists text needPrefixmatch prefixMatched).1 =
          .nodecision := by
      unfold hashMatch
      split
      · rfl
      split
      · split
        · exact isFull
        · rfl
      · exact isFull
    rw [matchLoop]
    simp only [isLookup, ne_eq, not_true_eq_false, isRest, ite_self]

section

variable (someHashes : lists.sha256Hashes.bmPatterns ≠ 0)

include someHashes

variable {rest : List (List UInt8)}

theorem matchLoop_plain
    {prefixMatched : Bool}
    (plain : prefixMatched = true ∨ lists.hostkeyPrefix.bmPatterns = 0) :
    matchLoop sha lists (text :: rest) count prefixMatched =
      if fullMatch sha lists text ≠ .nodecision then
        fullMatch sha lists text
      else
        matchLoop sha lists rest (count + 1) prefixMatched := by
  rcases plain with rfl | noKeys
  · simp [matchLoop, hashMatch, someHashes]
  · simp [matchLoop, hashMatch, someHashes, noKeys]

/-- Without the keys the first listed text matches. -/
theorem matchLoop_eq_firstMatch
    (texts : List (List UInt8))
    (count : Nat)
    (prefixMatched : Bool)
    (plain : prefixMatched = true ∨ lists.hostkeyPrefix.bmPatterns = 0) :
    matchLoop sha lists texts count prefixMatched = firstMatch sha lists texts := by
  induction texts generalizing count prefixMatched with
  | nil => rfl
  | cons text rest ih =>
    rw [matchLoop_plain someHashes plain, ih _ _ plain, firstMatch]

/-- A key in the first two texts keeps the others. -/
theorem matchLoop_of_key
    (early : count < 2)
    (isKey : prefixMatches sha lists text = true) :
    matchLoop sha lists (text :: rest) count false = firstMatch sha lists (text :: rest) := by
  by_cases noKeys : lists.hostkeyPrefix.bmPatterns = 0
  · exact matchLoop_eq_firstMatch someHashes _ _ _ (.inr noKeys)
  · rw [matchLoop, firstMatch,
      ← matchLoop_eq_firstMatch someHashes rest (count + 1) true (.inl rfl)]
    simp [hashMatch, someHashes, early, noKeys, isKey]

/-- Without one a text is passed over. -/
theorem matchLoop_of_no_key
    (someKeys : lists.hostkeyPrefix.bmPatterns ≠ 0)
    (noKey : prefixMatches sha lists text = false) :
    matchLoop sha lists (text :: rest) 0 false = matchLoop sha lists rest 1 false := by
  rw [matchLoop]
  simp [hashMatch, someHashes, someKeys, noKey]

end

end

section

theorem count_lastComponents_lt
    {n : Nat}
    (positive : 0 < n)
    (host : List UInt8) :
    (lastComponents n host).count 0x2e < n := by
  induction host with
  | nil => exact positive
  | cons c rest ih =>
    rw [lastComponents]
    split
    · assumption
    · exact ih

/-- The hosts that are looked up share the last two and the last three components. -/
structure SharedKeys (hosts : List (List UInt8)) (first : List UInt8) : Prop where
  isFirst : hosts.head? = some first
  firstThree : lastComponents 3 first = first
  lastTwo : ∀ host ∈ hosts, lastComponents 2 host = first
  lastThree : ∀ host ∈ hosts, lastComponents 3 host = first ∨
    hosts[1]? = some (lastComponents 3 host)

/-- The first texts share their last components. -/
theorem HostTexts.sharedKeys
    {places : List Nat}
    (isTexts : HostTexts host places components 0) :
    SharedKeys (places.map host.drop) (lastComponents 2 host) := by
  obtain ⟨found, isHosts, isWhole⟩ := isTexts.hosts
  have threeOfTwo : lastComponents 3 (lastComponents 2 host) = lastComponents 2 host :=
    lastComponents_of_lt (Nat.lt_succ_of_lt (count_lastComponents_lt (by decide) _))
  have mem (text : List UInt8) (isMember : text ∈ places.map host.drop) :
      text = host ∨ ∃ i < found, text = lastComponents (2 + i) host := by
    rw [isHosts, mem_append, mem_map] at isMember
    rcases isMember with ⟨i, inRange, rfl⟩ | isLast
    · exact .inr ⟨i, mem_range.mp inRange, by rw [zero_add]⟩
    · exact .inl (mem_singleton.mp isLast)
  refine ⟨?_, threeOfTwo, ?_, ?_⟩
  · rw [isHosts]
    rcases found with _ | found
    · rw [isWhole (by decide)]
      rfl
    · rw [range_succ_eq_map]
      rfl
  · intro text isMember
    rcases mem text isMember with rfl | ⟨i, -, rfl⟩
    · rfl
    · exact lastComponents_lastComponents (by omega) host
  · intro text isMember
    rw [isHosts]
    rcases mem text isMember with rfl | ⟨i, isFound, rfl⟩
    · rcases found with _ | _ | found
      · left
        have isTwo : lastComponents 2 text = text := isWhole (by decide)
        rw [isTwo] at threeOfTwo ⊢
        exact threeOfTwo
      · right
        have isThree : lastComponents 3 text = text := isWhole (by decide)
        rw [isThree]
        rfl
      · right
        rw [range_succ_eq_map, range_succ_eq_map]
        rfl
    · rcases i with _ | i
      · exact .inl threeOfTwo
      right
      rw [lastComponents_lastComponents (by omega) host]
      rcases found with _ | _ | found
      · omega
      · have isThree : lastComponents 3 host = host := isWhole (by decide)
        rw [isThree]
        rfl
      · rw [range_succ_eq_map, range_succ_eq_map]
        rfl

/--
For each listed text of a lookup, the last two or the last three components of
its host are among the host keys.
-/
def Covers
    (sha : List UInt8 → List UInt8)
    (lists : HashLists)
    (texts : List (List UInt8)) :
    Prop :=
  ∀ host path, host ++ 0x2f :: path ∈ texts → (0x2f : UInt8) ∉ host →
    Listed sha lists (host ++ 0x2f :: path) →
    prefixMatches sha lists (lastComponents 2 host ++ [0x2f]) = true ∨
      prefixMatches sha lists (lastComponents 3 host ++ [0x2f]) = true

theorem textsOf_concat
    (hosts : List (List UInt8))
    (path : List UInt8)
    (lengths : List Nat)
    (last : Nat) :
    textsOf hosts path (lengths ++ [last]) =
      hosts.map (· ++ 0x2f :: path.take last) ++ textsOf hosts path lengths := by
  simp [textsOf]

theorem mem_textsOf
    (mem : text ∈ textsOf hosts path lengths) :
    ∃ host ∈ hosts, ∃ length ∈ lengths, text = host ++ 0x2f :: path.take length := by
  obtain ⟨length, isLength, inRow⟩ := mem_flatMap.mp mem
  obtain ⟨host, isHost, rfl⟩ := mem_map.mp inRow
  exact ⟨host, isHost, length, mem_reverse.mp isLength, rfl⟩

variable {sha : List UInt8 → List UInt8} {lists : HashLists} {first : List UInt8}

/-- A text whose key is not there is not listed. -/
theorem Covers.not_listed
    {hosts : List (List UInt8)}
    {path text : List UInt8}
    {lengths : List Nat}
    (covers : Covers sha lists (textsOf hosts path lengths))
    (keys : SharedKeys hosts first)
    (noSlash : ∀ host ∈ hosts, (0x2f : UInt8) ∉ host)
    (noFirst : prefixMatches sha lists (first ++ [0x2f]) = false)
    (noSecond : ∀ second, hosts[1]? = some second →
      prefixMatches sha lists (second ++ [0x2f]) = false)
    (mem : text ∈ textsOf hosts path lengths) :
    ¬ Listed sha lists text := by
  obtain ⟨host, isHost, length, -, rfl⟩ := mem_textsOf mem
  intro listed
  rcases covers host _ mem (noSlash host isHost) listed with isKey | isKey
  · rw [keys.lastTwo host isHost, noFirst] at isKey
    cases isKey
  rcases keys.lastThree host isHost with isFirst | isSecond
  · rw [isFirst, noFirst] at isKey
    cases isKey
  · rw [noSecond _ isSecond] at isKey
    cases isKey

/-- With the root first the keys hide nothing. -/
theorem matchLoop_root_first
    (someHashes : lists.sha256Hashes.bmPatterns ≠ 0)
    (keys : SharedKeys hosts first)
    (noSlash : ∀ host ∈ hosts, (0x2f : UInt8) ∉ host)
    (covers : Covers sha lists (textsOf hosts path (whole ++ [0]))) :
    matchLoop sha lists (textsOf hosts path (whole ++ [0])) 0 false =
      firstMatch sha lists (textsOf hosts path (whole ++ [0])) := by
  by_cases noKeys : lists.hostkeyPrefix.bmPatterns = 0
  · exact matchLoop_eq_firstMatch someHashes _ _ _ (.inr noKeys)
  have notListed := fun text => @Covers.not_listed _ _ _ _ _ text _ covers keys noSlash
  obtain ⟨tail, rfl⟩ : ∃ tail, hosts = first :: tail := by
    obtain ⟨tail, isHosts⟩ := head?_eq_some_iff.mp keys.isFirst
    exact ⟨tail, isHosts⟩
  have firstMember : first ++ [0x2f] ∈ textsOf (first :: tail) path (whole ++ [0]) := by
    rw [textsOf_concat]
    exact mem_append_left _ (mem_map.mpr ⟨first, mem_cons_self, by simp⟩)
  have firstCovered := covers first [] firstMember (noSlash first mem_cons_self)
  rw [keys.lastTwo first mem_cons_self, keys.firstThree, or_self] at firstCovered
  rw [textsOf_concat] at notListed ⊢
  simp only [take_zero, map_cons, cons_append] at notListed ⊢
  cases isKey : prefixMatches sha lists (first ++ [0x2f]) with
  | true => exact matchLoop_of_key someHashes (by decide) isKey
  | false =>
    have firstNot : ¬ Listed sha lists (first ++ [0x2f]) := by
      intro listed
      rw [isKey] at firstCovered
      cases firstCovered listed
    rw [matchLoop_of_no_key someHashes noKeys isKey, firstMatch,
      fullMatch_of_not_listed firstNot, if_neg (not_not.mpr rfl)]
    by_cases secondKey : ∃ second, (first :: tail)[1]? = some second ∧
        prefixMatches sha lists (second ++ [0x2f]) = true
    · obtain ⟨second, isSecond, isKey'⟩ := secondKey
      obtain ⟨more, rfl⟩ : ∃ more, tail = second :: more := by
        rw [getElem?_cons_succ, ← head?_eq_getElem?] at isSecond
        exact head?_eq_some_iff.mp isSecond
      exact matchLoop_of_key someHashes (by decide) isKey'
    have nothing : ∀ text ∈ tail.map (· ++ [0x2f]) ++
        textsOf (first :: tail) path whole, ¬ Listed sha lists text := by
      intro text mem
      refine notListed text isKey (fun second isSecond => ?_) (mem_cons_of_mem _ mem)
      cases isKey' : prefixMatches sha lists (second ++ [0x2f]) with
      | false => rfl
      | true => exact (secondKey ⟨second, isSecond, isKey'⟩).elim
    rw [matchLoop_of_not_listed _ _ _ nothing, firstMatch_of_not_listed nothing]

end

theorem scanHash_single
    {base : BmRoot}
    (offmode : base.bmOffmode = false)
    (sig : BmSig)
    (noEol : sig.boundaryEol = false) :
    ∃ root, cliBmAddpatt (cliBmInit base) sig.patt ['*'] = .ok root ∧
        root.bmPatterns = base.bmPatterns + 1 ∧
        (∀ bytes, bytes.length = sig.bytes.length →
          ((∃ patt, scanHash root bytes = .virus patt) ↔ bytes = sig.bytes)) ∧
        ∀ bytes patt, scanHash root bytes = .virus patt → patt.virname = sig.virname := by
  obtain ⟨root, adds, changes⟩ := cliBmAddpatt_star (cliBmInit base) sig
  obtain ⟨root', adds', inv⟩ := cliBmAddpatt_inv sig (cliBmInit_inv offmode)
  cases adds.symm.trans adds'
  rw [nil_append] at inv
  have notHidden (p : BmPatt)
      (mem : p ∈ root.bmSuffix (bmHashAt p.pattern 0)) : ¬ Hidden root p := by
    intro hidden
    have crowded := hidden.length_gt mem
    rw [changes.suffix] at crowded
    split at crowded
    · exact absurd crowded (by simp [cliBmInit, chainInsert])
    · exact absurd crowded (by simp [cliBmInit])
  refine ⟨root, adds, changes.patterns, ?_, ?_⟩
  · intro bytes sameLength
    constructor
    · rintro ⟨patt, isVirus⟩
      obtain ⟨-, -, -, sig', isSig, -, start, isPart, -⟩ := visible_of_virus inv isVirus
      cases mem_singleton.mp isSig
      have isLength := isPart.length_le
      rw [length_drop] at isLength
      have positive : 0 < sig.bytes.length := lt_of_lt_of_le (by decide) sig.longEnough
      obtain rfl : start = 0 := by omega
      rw [drop_zero] at isPart
      exact (isPart.eq_of_length sameLength.symm).symm
    · rintro rfl
      obtain ⟨h, p, mem, stored⟩ := inv.table.complete sig mem_cons_self
      have hash := (inv.table.sound h p mem).1
      exact virus_of_visible inv _ _ mem (notHidden p (by rw [hash]; exact mem))
        stored ⟨0, by simp, by simp [noEol]⟩
  · intro bytes patt isVirus
    obtain ⟨-, -, -, sig', isSig, stored, -⟩ := visible_of_virus inv isVirus
    cases mem_singleton.mp isSig
    exact stored.virname

/-- Lists of one hash and one key. -/
theorem single_lists
    (digest key : List UInt8)
    (digestLength : digest.length = 32)
    (keyLength : key.length = 4) :
    ∃ lists, HashesLoaded lists ∧ lists.sha256Hashes.bmPatterns ≠ 0 ∧
        lists.hostkeyPrefix.bmPatterns ≠ 0 ∧
        (∀ bytes, bytes.length = 32 → ((∃ patt, scanHash lists.sha256Hashes bytes = .virus patt) ↔
            bytes = digest)) ∧
        (∀ bytes patt, scanHash lists.sha256Hashes bytes = .virus patt → hashStatus patt = .hash1) ∧
        ∀ bytes, bytes.length = 4 → ((∃ patt, scanHash lists.hostkeyPrefix bytes = .virus patt) ↔
            bytes = key) := by
  let digestSig : BmSig :=
    { bytes := digest
      virname := ['1']
      longEnough := by rw [digestLength]; decide
      fitsLength := by rw [digestLength]; decide }
  let keySig : BmSig :=
    { bytes := key
      virname := ['1']
      longEnough := by rw [keyLength]; decide
      fitsLength := by rw [keyLength]; decide }
  have offmode : freshRoot.bmOffmode = false := rfl
  obtain ⟨hashes, addsHash, someHashes, isListed, isNamed⟩ := scanHash_single offmode digestSig rfl
  obtain ⟨keys, addsKey, someKeys, isKey, -⟩ := scanHash_single offmode keySig rfl
  have notWhite : ¬ ('1' ≠ 'W' ∧ false = false ∧
      flagOf initHashLists.sha256Hashes digest = some 'W') := by
    rintro ⟨-, -, isWhite⟩
    unfold flagOf at isWhite
    split at isWhite
    · rename_i patt isVirus
      obtain ⟨-, -, -, sig, isSig, -⟩ := visible_of_virus (cliBmInit_inv offmode) isVirus
      cases isSig
    · cases isWhite
  have hashAdded : addHash initHashLists digest '1' false =
      .ok { initHashLists with sha256Hashes := hashes } := by
    have isPatt : digestSig.patt = { pattern := digest, length := 32, virname := ['1'] } := by
      rw [← digestLength]
      rfl
    rw [isPatt] at addsHash
    rw [addHash, if_neg notWhite, if_neg Bool.false_ne_true]
    simp only [initHashLists, Bool.false_eq_true, if_false]
    rw [← freshRoot, addsHash]
  have keyAdded : addHash { initHashLists with sha256Hashes := hashes } key '1'
      true = .ok ⟨hashes, keys⟩ := by
    have isPatt : keySig.patt = { pattern := key, length := 4, virname := ['1'] } := by
      rw [← keyLength]
      rfl
    rw [isPatt] at addsKey
    rw [addHash, if_neg (by simp), if_pos rfl]
    simp only [initHashLists, if_true]
    rw [← freshRoot, addsKey]
  refine ⟨⟨hashes, keys⟩, ?_, ?_, ?_, ?_, ?_, ?_⟩
  · refine .add (.add .init ?_ hashAdded) ?_ keyAdded
    · exact digestLength
    · exact keyLength
  · rw [someHashes]
    exact Nat.succ_ne_zero _
  · rw [someKeys]
    exact Nat.succ_ne_zero _
  · exact fun bytes isLength => isListed bytes (isLength.trans digestLength.symm)
  · intro bytes patt isVirus
    rw [hashStatus, isNamed bytes patt isVirus]
    rfl
  · exact fun bytes isLength => isKey bytes (isLength.trans keyLength.symm)

variable {sha : List UInt8 → List UInt8}

/-- The texts have different keys. -/
def NoCollision
    (sha : List UInt8 → List UInt8)
    (texts : List (List UInt8)) :
    Prop :=
  ∀ a ∈ texts, ∀ b ∈ texts, (sha a).take 4 = (sha b).take 4 → a = b

theorem firstMatch_withoutPrefixes
    (lists : HashLists)
    (texts : List (List UInt8)) :
    firstMatch sha lists.withoutPrefixes texts = firstMatch sha lists texts := by
  induction texts with
  | nil => rfl
  | cons text rest ih =>
    rw [firstMatch, firstMatch, ih]
    rfl

variable {places : List Nat}

/-- The deepest text comes up once. -/
theorem deepest_not_again
    {deep first : Nat}
    {others : List Nat}
    (isPlaces : places = first :: others)
    (noSlash : (0x2f : UInt8) ∉ host)
    (inside : ∀ place ∈ places, place ≤ host.length)
    (descending : places.Pairwise (· > ·))
    (isLengths : PathLengths path whole (slashes ++ [deep])) :
    host.drop first ++ 0x2f :: path.take deep ∉
      (others.map host.drop).map (· ++ 0x2f :: path.take deep) ++
        textsOf (places.map host.drop) path (whole ++ 0 :: slashes) := by
  obtain ⟨positive, isSlash⟩ := isLengths.slash deep (by simp)
  obtain ⟨deepInside, -⟩ := List.getElem?_eq_some_iff.mp isSlash
  have dropSlash (place : Nat) : (0x2f : UInt8) ∉ host.drop place :=
    fun mem => noSlash (mem_of_mem_drop mem)
  intro mem
  rcases mem_append.mp mem with sameDepth | otherDepth
  · obtain ⟨text, isText, same⟩ := mem_map.mp sameDepth
    obtain ⟨place, isPlace, rfl⟩ := mem_map.mp isText
    have sameText := (cut_unique (dropSlash _) (dropSlash _) same).1
    have sameLength := congrArg length sameText
    rw [isPlaces] at inside descending
    have below := (pairwise_cons.mp descending).1 place isPlace
    have firstInside := inside first mem_cons_self
    rw [length_drop, length_drop] at sameLength
    omega
  · obtain ⟨text, isText, length, isLength, same⟩ := mem_textsOf otherDepth
    obtain ⟨place, -, rfl⟩ := mem_map.mp isText
    have samePath := (cut_unique (dropSlash _) (dropSlash _) same).2
    have sameLength := congrArg List.length samePath
    rw [length_take, length_take] at sameLength
    obtain rfl : length = deep := by omega
    rcases mem_append.mp isLength with inWhole | inRest
    · exact isLengths.whole length inWhole isSlash
    rcases mem_cons.mp inRest with rfl | inSlashes
    · exact lt_irrefl 0 positive
    · have below := (pairwise_append.mp isLengths.ascending).2.2 length inSlashes length (by simp)
      exact lt_irrefl _ below

variable {inurl : List UInt8} {canon : Canon} {texts : List (List UInt8)}

section

variable {lists : HashLists} (someHashes : lists.sha256Hashes.bmPatterns ≠ 0)
  (isCanon : cliUrlCanon inurl = some (some canon)) (isTexts : lookupTexts canon = some texts)

include someHashes isCanon isTexts

theorem urlHashMatch_eq :
    urlHashMatch sha lists inurl = some (matchLoop sha lists texts 0 false) := by
  rw [urlHashMatch, if_neg someHashes]
  simp only [isCanon, isTexts, Option.bind_eq_bind, Option.bind_some, Option.pure_def]

theorem urlHashMatch_withoutPrefixes :
    urlHashMatch sha lists.withoutPrefixes inurl = some (firstMatch sha lists texts) := by
  have sameHashes : lists.withoutPrefixes.sha256Hashes.bmPatterns ≠ 0 := someHashes
  rw [urlHashMatch_eq sameHashes isCanon isTexts,
    matchLoop_eq_firstMatch sameHashes texts 0 false (.inr rfl),
    firstMatch_withoutPrefixes]

end

section

variable {lists : HashLists} (shaLength : ∀ text, (sha text).length = 32)

include shaLength

/-- Of texts with different keys, only the text of the one hash is listed. -/
theorem listed_iff_eq
    {text deepest : List UInt8}
    (noCollision : NoCollision sha texts)
    (isListed : ∀ bytes, bytes.length = 32 →
      ((∃ patt, scanHash lists.sha256Hashes bytes = .virus patt) ↔ bytes = sha deepest))
    (mem : text ∈ texts)
    (deepestMember : deepest ∈ texts) :
    Listed sha lists text ↔ text = deepest := by
  rw [Listed, isListed _ (shaLength text)]
  constructor
  · exact fun same => noCollision _ mem _ deepestMember (by rw [same])
  · rintro rfl
    rfl

/-- With one key, a text passes exactly if it has that key. -/
theorem prefixMatches_iff_key
    {key : List UInt8}
    (isKey : ∀ bytes, bytes.length = 4 →
      ((∃ patt, scanHash lists.hostkeyPrefix bytes = .virus patt) ↔ bytes = key))
    (text : List UInt8) :
    prefixMatches sha lists text = true ↔ (sha text).take 4 = key := by
  rw [← isKey _ (by rw [length_take, shaLength]; rfl), prefixMatches]
  split
  · rename_i patt isVirus
    exact iff_of_true rfl ⟨patt, isVirus⟩
  · rename_i notVirus
    exact iff_of_false Bool.false_ne_true fun found => found.elim notVirus

end

/-- Some lists hide the hash of the deepest text. -/
theorem exists_hidden
    (shaLength : ∀ text, (sha text).length = 32)
    (isCanon : cliUrlCanon inurl = some (some canon))
    (isTexts : lookupTexts canon = some texts)
    (isLookups : texts = textsOf (places.map host.drop) canon.pathText (whole ++ 0 :: slashes))
    (noSlash : (0x2f : UInt8) ∉ host)
    (isHosts : HostTexts host places components 0)
    (inside : ∀ place ∈ places, place ≤ host.length)
    (isLengths : PathLengths canon.pathText whole slashes)
    (someSlash : slashes ≠ [])
    (noCollision : NoCollision sha texts) :
    ∃ lists, HashesLoaded lists ∧ Covers sha lists texts ∧
        urlHashMatch sha lists inurl = some .nodecision ∧
        urlHashMatch sha lists.withoutPrefixes inurl = some .hash1 := by
  have keys := isHosts.sharedKeys
  obtain ⟨first, others, isPlaces⟩ : ∃ first others, places = first :: others := by
    refine exists_cons_of_ne_nil fun isNil => ?_
    have isFirst := keys.isFirst
    rw [isNil] at isFirst
    cases isFirst
  obtain ⟨slashes, deep, rfl⟩ := (eq_nil_or_concat slashes).resolve_left someSlash
  rw [concat_eq_append] at isLengths isLookups
  have firstHost : host.drop first = lastComponents 2 host := by
    have isFirst := keys.isFirst
    rw [isPlaces] at isFirst
    exact Option.some.inj isFirst
  have notAgain := deepest_not_again isPlaces noSlash inside isHosts.descending isLengths
  obtain ⟨positive, isSlash⟩ := isLengths.slash deep (by simp)
  obtain ⟨deepInside, -⟩ := List.getElem?_eq_some_iff.mp isSlash
  generalize canon.pathText = path at *
  have isRest : texts = (host.drop first ++ 0x2f :: path.take deep) ::
      ((others.map host.drop).map (· ++ 0x2f :: path.take deep) ++
        textsOf (places.map host.drop) path (whole ++ 0 :: slashes)) := by
    rw [isLookups, ← cons_append, ← append_assoc, textsOf_concat]
    nth_rewrite 1 [isPlaces]
    rfl
  have rootMember : host.drop first ++ [0x2f] ∈ texts := by
    rw [isLookups, isPlaces, textsOf, mem_flatMap]
    exact ⟨0, by simp, mem_map.mpr ⟨host.drop first, by simp, by simp⟩⟩
  generalize isDeepest : host.drop first ++ 0x2f :: path.take deep = deepest at *
  have deepestMember : deepest ∈ texts := by
    rw [isRest]
    exact mem_cons_self
  have otherKey : (sha deepest).take 4 ≠ (sha (host.drop first ++ [0x2f])).take 4 := by
    intro same
    have sameText := noCollision _ deepestMember _ rootMember same
    have sameLength := congrArg length sameText
    rw [← isDeepest] at sameLength
    simp only [length_append, length_cons, length_take, length_nil] at sameLength
    omega
  obtain ⟨lists, loaded, someHashes, someKeys, isListed, isNamed, isKey⟩ :=
    single_lists (sha deepest) ((sha (host.drop first ++ [0x2f])).take 4)
      (shaLength _) (by rw [length_take, shaLength]; rfl)
  have listed_iff (text : List UInt8) (mem : text ∈ texts) :=
    listed_iff_eq shaLength noCollision isListed mem deepestMember
  have key_iff := prefixMatches_iff_key shaLength isKey
  refine ⟨lists, loaded, ?_, ?_, ?_⟩
  · intro other rest mem otherSlash listed
    have same := (listed_iff _ mem).mp listed
    rw [← isDeepest] at same
    have sameHost := (cut_unique otherSlash
      (fun inHost => noSlash (mem_of_mem_drop inHost)) same).1
    refine .inl ((key_iff _).mpr ?_)
    rw [sameHost, firstHost, lastComponents_lastComponents (Nat.le_refl 2)]
  · have noKey : prefixMatches sha lists deepest = false := by
      rw [← Bool.not_eq_true, key_iff]
      exact otherKey
    rw [urlHashMatch_eq someHashes isCanon isTexts, isRest,
      matchLoop_of_no_key someHashes someKeys noKey,
      matchLoop_of_not_listed _ _ _ fun text mem listed => ?_]
    have isMember : text ∈ texts := by
      rw [isRest]
      exact mem_cons_of_mem _ mem
    rw [(listed_iff text isMember).mp listed] at mem
    exact notAgain mem
  · obtain ⟨patt, isVirus⟩ := (listed_iff deepest deepestMember).mpr rfl
    have isFull : fullMatch sha lists deepest = .hash1 := by
      rw [fullMatch, isVirus]
      exact isNamed _ patt isVirus
    rw [urlHashMatch_withoutPrefixes someHashes isCanon isTexts, isRest, firstMatch, isFull]
    rfl

/--
The short circuit hides nothing from any lists that have the keys of their hashes
if the path has no slash behind its first byte, and, unless keys of the texts
collide, only then.
-/
theorem short_circuit_hides_nothing_iff
    (sha : List UInt8 → List UInt8)
    (shaLength : ∀ text, (sha text).length = 32)
    (inurl : List UInt8)
    (short : inurl.length ≤ 1024)
    (noNull : (0 : UInt8) ∉ inurl)
    (canon : Canon)
    (isCanon : cliUrlCanon inurl = some (some canon)) :
    ∃ texts, lookupTexts canon = some texts ∧ ((0x2f : UInt8) ∉ canon.pathText.drop 1 →
          ∀ lists, Covers sha lists texts → urlHashMatch sha lists inurl =
              urlHashMatch sha lists.withoutPrefixes inurl) ∧
        (NoCollision sha texts → (∀ lists, HashesLoaded lists → Covers sha lists texts →
            urlHashMatch sha lists inurl = urlHashMatch sha lists.withoutPrefixes inurl) →
          (0x2f : UInt8) ∉ canon.pathText.drop 1) := by
  obtain ⟨places, whole, slashes, noSlash, isHosts, inside, isLengths, isTexts⟩ :=
    cliUrlCanon_lookups short noNull isCanon
  generalize canon.hostText = host at *
  refine ⟨_, isTexts, ?_, ?_⟩
  · intro rootFirst lists covers
    obtain rfl := isLengths.none.mpr rootFirst
    by_cases noHashes : lists.sha256Hashes.bmPatterns = 0
    · rw [urlHashMatch, if_pos noHashes, urlHashMatch]
      exact (if_pos noHashes).symm
    have hostSlash : ∀ text ∈ places.map host.drop, (0x2f : UInt8) ∉ text := by
      intro text mem inText
      obtain ⟨place, -, rfl⟩ := mem_map.mp mem
      exact noSlash (mem_of_mem_drop inText)
    rw [urlHashMatch_eq noHashes isCanon isTexts,
      urlHashMatch_withoutPrefixes noHashes isCanon isTexts,
      matchLoop_root_first noHashes isHosts.sharedKeys hostSlash covers]
  · intro noCollision same
    refine isLengths.none.mp (Classical.byContradiction fun someSlash => ?_)
    obtain ⟨lists, loaded, covers, withKeys, withoutKeys⟩ :=
      exists_hidden shaLength isCanon isTexts rfl noSlash isHosts inside isLengths
        someSlash noCollision
    have differ := same lists loaded covers
    rw [withKeys, withoutKeys] at differ
    cases differ

/-- The 32 bytes of a digest that is written as one number. -/
def digestBytes (digest : Nat) : List UInt8 :=
  (range 32).map fun i => UInt8.ofNat (digest / 256 ^ (31 - i))

/--
SHA-256 as a table: the digests of the texts that are looked up for the two URLs
below. Of a text that is not looked up the table says nothing.
-/
def tableSha (text : List UInt8) : List UInt8 :=
  digestBytes <|
    -- h/
    if text = [0x68, 0x2f] then
      0x4a4150c9239edf08c282d52ddfeb0cd9f6d59be5b28fabf0b2f6b4d8223a8a5a
    -- h/a
    else if text = [0x68, 0x2f, 0x61] then
      0x05c89c9523e35d6eba2399700fa7e6217b7f05a5b6f568ca9f16323ca8ce49c5
    -- h/a/b
    else if text = [0x68, 0x2f, 0x61, 0x2f, 0x62] then
      0xa1306119c1d4daee8da47dffcb074d1bd4f4a0da1059bb8c35b0aad93110ce2c
    -- h/bA
    else if text = [0x68, 0x2f, 0x62, 0x41] then
      0x01cf834f6b2eea6b13f11b476f8ad36d6f9dd46e52f904894d75e20e57f76e82
    else 0

/-- Every digest of the table has the length of a SHA-256 digest. -/
theorem tableSha_length (text : List UInt8) : (tableSha text).length = 32 := by
  rw [tableSha, digestBytes, length_map, length_range]

/-- `http://h/./b%2541` -/
def settledUrl : List UInt8 :=
  [0x68, 0x74, 0x74, 0x70, 0x3a, 0x2f, 0x2f, 0x68, 0x2f, 0x2e, 0x2f, 0x62,
    0x25, 0x32, 0x35, 0x34, 0x31]

/-- `http://h/a/b` -/
def slashedUrl : List UInt8 :=
  [0x68, 0x74, 0x74, 0x70, 0x3a, 0x2f, 0x2f, 0x68, 0x2f, 0x61, 0x2f, 0x62]

/-- What the functions make of a URL, in two steps. -/
theorem canon_of_evaluates
    {inurl : List UInt8}
    {f : Canon → Option α}
    {value : α}
    (evaluates : (cliUrlCanon inurl).bind (fun canon => canon.bind f) = some value) :
    ∃ canon, cliUrlCanon inurl = some (some canon) ∧ f canon = some value := by
  obtain ⟨result, isResult, isValue⟩ := Option.bind_eq_some_iff.mp evaluates
  obtain ⟨canon, rfl, isValue⟩ := Option.bind_eq_some_iff.mp isValue
  exact ⟨canon, isResult, isValue⟩

/-- The path of the settled URL is `bA`, without a slash. -/
theorem short_circuit_hides_nothing_settledUrl :
    ∃ canon texts, cliUrlCanon settledUrl = some (some canon) ∧ lookupTexts canon = some texts ∧
        ∀ lists, Covers tableSha lists texts → urlHashMatch tableSha lists settledUrl =
            urlHashMatch tableSha lists.withoutPrefixes settledUrl := by
  obtain ⟨canon, isCanon, isPath⟩ :=
    @canon_of_evaluates _ settledUrl (fun canon => some canon.pathText) [0x62, 0x41]
      (by decide +kernel)
  obtain ⟨texts, isTexts, hidesNothing, -⟩ := short_circuit_hides_nothing_iff
    tableSha tableSha_length settledUrl (by decide) (by decide) canon isCanon
  refine ⟨canon, texts, isCanon, isTexts, hidesNothing ?_⟩
  rw [Option.some.inj isPath]
  decide

/--
The hash of `h/a` is hidden, although the key of `h/` is there.  The texts are
`h/a`, `h/` and `h/a/b`.
-/
theorem short_circuit_hides_slashedUrl :
    ∃ canon texts, cliUrlCanon slashedUrl = some (some canon) ∧ lookupTexts canon = some texts ∧
        (∀ sha, (∀ text, (sha text).length = 32) → NoCollision sha texts →
          ∃ lists, HashesLoaded lists ∧ Covers sha lists texts ∧
            urlHashMatch sha lists slashedUrl = some .nodecision ∧
            urlHashMatch sha lists.withoutPrefixes slashedUrl = some .hash1) ∧
        NoCollision tableSha texts := by
  obtain ⟨canon, isCanon, evaluates⟩ := @canon_of_evaluates _ slashedUrl
    (fun canon => (lookupTexts canon).map fun texts => (texts, canon.pathText))
    ([[0x68, 0x2f, 0x61], [0x68, 0x2f], [0x68, 0x2f, 0x61, 0x2f, 0x62]], [0x61, 0x2f, 0x62])
    (by decide +kernel)
  obtain ⟨texts, isTexts, same⟩ := Option.map_eq_some_iff.mp evaluates
  obtain ⟨isList, isPath⟩ := Prod.mk.inj same
  refine ⟨canon, texts, isCanon, isTexts, ?_, ?_⟩
  · intro sha shaLength noCollision
    obtain ⟨places, whole, slashes, noSlash, isHosts, inside, isLengths, isLookups⟩ :=
      @cliUrlCanon_lookups slashedUrl (by decide) (by decide) canon isCanon
    obtain rfl := Option.some.inj (isTexts.symm.trans isLookups)
    refine exists_hidden shaLength isCanon isTexts rfl noSlash isHosts inside
      isLengths (fun isNil => ?_) noCollision
    have noMore := isLengths.none.mp isNil
    rw [isPath] at noMore
    exact absurd noMore (by decide)
  · rw [isList]
    unfold NoCollision
    decide +kernel

end LibClamav.Phish
