import LibClamav.UrlBounds
import LibClamav.UrlHashSource
import LibClamav.Separators
import Mathlib.Data.List.Induction

namespace LibClamav.Phish

open CheckedBuffer List

/-!
# The texts that are looked up

The pointers of `url_hash_match` in terms of the host and the path.  The search
for the components of the host may leave the host at its first byte; that byte is
never a dot, since no step of `cli_url_canon` behind the skipped dots moves
anything to its place.
-/

variable {buf later text host front path : List UInt8} {urlend i hostBegin n : Nat} {c : UInt8}
  {canon : Canon}

theorem hostOf_cons
    (c : UInt8)
    (rest : List UInt8) :
    hostOf (c :: rest) = if endsHost c then [] else c :: hostOf rest := by
  unfold hostOf
  cases ends : endsHost c <;> simp [ends]

theorem pathOf_suffix (text : List UInt8) : pathOf text <:+ text :=
  (drop_suffix _ _).trans (dropWhile_suffix _)

theorem tolower_eq_slash : ∀ c : UInt8, tolower c = 0x2f → c = 0x2f := by
  decide +kernel

/-- A host has no slash. -/
theorem slash_not_mem_host (text : List UInt8) : (0x2f : UInt8) ∉ (hostOf text).map tolower := by
  intro mem
  obtain ⟨c, isMember, isSlash⟩ := mem_map.mp mem
  have notEnd := mem_takeWhile_imp isMember
  rw [tolower_eq_slash c isSlash] at notEnd
  cases notEnd

theorem head?_hostOf_escapeText
    (notDot : text.head? ≠ some 0x2e) :
    ((hostOf (escapeText text)).map tolower).head? ≠ some 0x2e := by
  rcases text with _ | ⟨c, rest⟩
  · intro isSome
    cases isSome
  have differs : c ≠ 0x2e := fun same => notDot (by rw [same]; rfl)
  have lowered : ∀ d : UInt8, tolower d = 0x2e → d = 0x2e := by decide +kernel
  rw [escapeText_cons, escapeChar]
  split
  · rw [cons_append, hostOf_cons, if_neg (by decide)]
    intro isSome
    cases isSome
  rw [singleton_append, hostOf_cons]
  split
  · intro isSome
    cases isSome
  · intro isDot
    exact differs (lowered c (Option.some.inj isDot))

/-- The host and the path in the buffer that `cli_url_canon` leaves. -/
theorem cliUrlCanon_shape
    {inurl : List UInt8}
    (short : inurl.length ≤ 1024)
    (noNull : (0 : UInt8) ∉ inurl)
    (isCanon : cliUrlCanon inurl = some (some canon)) :
    ∃ front text, canon.Shape front ((hostOf text).map tolower) (pathOf text) ∧ (0 : UInt8) ∉ text ∧
        ((hostOf text).map tolower).head? ≠ some 0x2e := by
  cases isStart : hostStart inurl with
  | none =>
    rw [cliUrlCanon, canonText, canonSegments_eq short noNull, isStart] at isCanon
    cases isCanon
  | some start =>
    obtain ⟨front, kept, rest, url, -, outcome, -, -, notDot⟩ := canon_of_start short noNull isStart
    split_ifs at outcome
    · obtain ⟨canon', isCanon', shape⟩ := outcome
      cases isCanon.symm.trans isCanon'
      exact ⟨front, escapeText kept, shape,
        not_mem_escapeText (by decide) (by decide) (by decide) kept,
        head?_hostOf_escapeText notDot⟩
    · rw [outcome] at isCanon
      cases isCanon

/-- The last components of a host, or the whole host if it has no more. -/
def lastComponents (n : Nat) : List UInt8 → List UInt8
  | [] => []
  | c :: rest =>
    if (c :: rest).count 0x2e < n then c :: rest else lastComponents n rest

theorem lastComponents_of_lt (few : host.count 0x2e < n) : lastComponents n host = host := by
  cases host with
  | nil => rfl
  | cons c rest => rw [lastComponents, if_pos few]

/-- The last components behind a dot. -/
theorem lastComponents_append
    (front suffix : List UInt8)
    (isCount : suffix.count 0x2e = n) :
    lastComponents (n + 1) (front ++ 0x2e :: suffix) = suffix := by
  induction front with
  | nil =>
    rw [nil_append, lastComponents, if_neg (by simp [isCount])]
    exact lastComponents_of_lt (by omega)
  | cons c front ih =>
    rw [cons_append, lastComponents, if_neg (by
      rw [count_cons, count_append, count_cons_self]
      omega)]
    exact ih

theorem lastComponents_lastComponents
    {k : Nat}
    (fewer : n ≤ k)
    (host : List UInt8) :
    lastComponents n (lastComponents k host) = lastComponents n host := by
  induction host with
  | nil => rfl
  | cons c rest ih =>
    rw [lastComponents.eq_2 k]
    split
    · rfl
    · rename_i many
      rw [ih, lastComponents.eq_2 n, if_neg (by omega)]

theorem lastOf_concat
    (c d : UInt8)
    (text : List UInt8) :
    lastOf c (text ++ [d]) = if d = c then some text.length else lastOf c text := by
  induction text with
  | nil => rfl
  | cons a text ih =>
    rw [cons_append, lastOf, ih]
    by_cases same : d = c
    · rw [if_pos same, if_pos same]
      rfl
    · rw [if_neg same, if_neg same, lastOf]

/-- The last place of a character. -/
theorem lastOf_eq_some
    (isLast : lastOf c text = some i) :
    ∃ front back, text = front ++ c :: back ∧ front.length = i ∧ c ∉ back := by
  induction text using reverseRecOn with
  | nil => cases isLast
  | append_singleton text d ih =>
    rw [lastOf_concat] at isLast
    split at isLast
    · rename_i same
      cases isLast
      exact ⟨text, [], by rw [same], rfl, not_mem_nil⟩
    rename_i differs
    obtain ⟨front, back, isText, isLength, notThere⟩ := ih isLast
    refine ⟨front, back ++ [d], by simp [isText], isLength, ?_⟩
    simp [notThere, Ne.symm differs]

theorem lastOf_eq_none (isLast : lastOf c text = none) : c ∉ text := by
  induction text using reverseRecOn with
  | nil => exact not_mem_nil
  | append_singleton text d ih =>
    rw [lastOf_concat] at isLast
    split at isLast
    · cases isLast
    · rename_i differs
      simp [ih isLast, Ne.symm differs]

/-- The search for the dot before a place. -/
theorem previousDot_text
    (front before back : List UInt8)
    (nonempty : before ≠ []) :
    previousDot (front ++ before ++ back) front.length (front.length + before.length) =
      some ((lastOf 0x2e before).map (front.length + ·)) := by
  induction before using reverseRecOn generalizing back with
  | nil => exact (nonempty rfl).elim
  | append_singleton before d ih =>
    have isCell : read (front ++ (before ++ [d]) ++ back)
        (front.length + before.length) = some d := by
      have isBuffer : front ++ (before ++ [d]) ++ back = front ++ before ++ d :: back := by simp
      rw [isBuffer, ← length_append]
      exact @read_append_right _ (front ++ before) _ 0
    rw [length_append, length_singleton, ← add_assoc, previousDot, isCell, lastOf_concat]
    simp only [Option.bind_eq_bind, Option.bind_some]
    by_cases isDot : d = 0x2e
    · rw [if_pos isDot, if_pos isDot]
      rfl
    rw [if_neg isDot, if_neg isDot]
    rcases before with _ | ⟨a, before⟩
    · rw [if_neg (by simp)]
      rfl
    rw [if_pos (by simp)]
    have searches := ih ([d] ++ back) (cons_ne_nil _ _)
    rw [← searches]
    simp

/-- The hosts of the lookups, and the places where they begin. -/
structure HostTexts (host : List UInt8) (places : List Nat) (j n : Nat) : Prop where
  hosts : ∃ found, places.map host.drop =
        (range found).map (fun i => lastComponents (n + 2 + i) host) ++ [host] ∧
      (found < j → lastComponents (n + 2 + found) host = host)
  descending : places.Pairwise (· > ·)

theorem HostTexts.whole
    (few : host.count 0x2e < n + 2)
    (j : Nat) :
    HostTexts host [0] j n :=
  ⟨⟨0, rfl, fun _ => lastComponents_of_lt few⟩, pairwise_singleton _ _⟩

/-- The loop over the components. -/
theorem hostLoop_text
    {host back : List UInt8}
    (notDot : host.head? ≠ some 0x2e)
    (j : Nat)
    (before behind : List UInt8)
    (n : Nat)
    (isHost : host = before ++ 0x2e :: behind)
    (isCount : behind.count 0x2e = n) :
    ∃ places, hostLoop (front ++ host ++ back) front.length j
        (some (front.length + before.length)) =
      some (places.map (front.length + ·)) ∧
      HostTexts host places j n ∧ ∀ place ∈ places, place ≤ before.length := by
  induction j generalizing before behind n with
  | zero =>
    refine ⟨[0], rfl, ⟨⟨0, rfl, fun less => ?_⟩, pairwise_singleton _ _⟩, by simp⟩
    exact (Nat.not_lt_zero _ less).elim
  | succ j ih =>
    have nonempty : before ≠ [] := by
      rintro rfl
      exact notDot (by rw [isHost]; rfl)
    have isBuffer : front ++ host ++ back = front ++ before ++ (0x2e :: behind ++ back) := by
      rw [isHost]
      simp
    have searches := previousDot_text front before (0x2e :: behind ++ back) nonempty
    rw [← isBuffer] at searches
    rw [hostLoop, searches]
    simp only [Option.bind_eq_bind, Option.bind_some]
    cases isLast : lastOf 0x2e before with
    | none =>
      have noDot := lastOf_eq_none isLast
      refine ⟨[0], rfl, HostTexts.whole ?_ _, by simp⟩
      rw [isHost, count_append, count_eq_zero_of_not_mem noDot, count_cons_self]
      omega
    | some dot =>
      obtain ⟨front', mid, isBefore, isDot, noDot⟩ := lastOf_eq_some isLast
      have isHost' : host = front' ++ 0x2e :: (mid ++ 0x2e :: behind) := by
        rw [isHost, isBefore]
        simp
      have midCount : (mid ++ 0x2e :: behind).count 0x2e = n + 1 := by
        rw [count_append, count_eq_zero_of_not_mem noDot, count_cons_self]
        omega
      obtain ⟨places, loops, ⟨⟨found, isFound, isWhole⟩, descending⟩, below⟩ :=
        ih front' (mid ++ 0x2e :: behind) (n + 1) isHost' midCount
      have shifted (i : Nat) : n + 1 + 2 + i = n + 2 + (i + 1) := by omega
      simp only [shifted] at isFound isWhole
      rw [isDot] at loops below
      simp only [Option.map_some, loops, Option.bind_some, Option.pure_def]
      refine ⟨(dot + 1) :: places, ?_, ⟨⟨found + 1, ?_, ?_⟩, ?_⟩, ?_⟩
      · simp [add_assoc]
      · have isFirst : host.drop (dot + 1) = mid ++ 0x2e :: behind := by
          have isSplit : host = (front' ++ [0x2e]) ++ (mid ++ 0x2e :: behind) := by
            rw [isHost']
            simp
          rw [isSplit, drop_left' (by simp [isDot])]
        have isComponents : lastComponents (n + 2) host = mid ++ 0x2e :: behind := by
          rw [isHost']
          exact lastComponents_append _ _ midCount
        rw [map_cons, isFound, isFirst, ← isComponents, range_succ_eq_map, map_cons, map_map]
        rfl
      · exact fun less => isWhole (by omega)
      · refine pairwise_cons.mpr ⟨fun place mem => ?_, descending⟩
        have := below place mem
        omega
      · have isLength := congrArg length isBefore
        rw [length_append, length_cons] at isLength
        intro place mem
        rcases mem_cons.mp mem with rfl | inRest
        · omega
        · have := below place inRest
          omega

theorem strrchr_text
    (front host back : List UInt8)
    (noNull : (0 : UInt8) ∉ host) :
    strrchr (front ++ host ++ 0x2f :: 0 :: back) front.length 0x2e =
      some ((lastOf 0x2e host).map (front.length + ·)) := by
  have isBuffer : front ++ host ++ 0x2f :: 0 :: back =
      front ++ (host ++ [0x2f]) ++ 0 :: back := by simp
  have isWhole : (host ++ [0x2f]).takeWhile (fun c => !(c == 0)) = host ++ [0x2f] := by
    rw [takeWhile_eq_self_iff]
    intro c mem
    have differs : c ≠ 0 := by
      rintro rfl
      simp [noNull] at mem
    simp [differs]
  have finds : find (· == 0) (front ++ (host ++ [0x2f]) ++ 0 :: back)
      front.length = some (front.length + (host ++ [0x2f]).length) := by
    rw [find_text front (host ++ [0x2f]) back (by simp), isWhole]
  have isTaken : ((front ++ (host ++ [0x2f]) ++ 0 :: back).drop
      front.length).take (front.length + (host ++ [0x2f]).length -
        front.length) = host ++ [0x2f] := by
    rw [append_assoc, drop_left, Nat.add_sub_cancel_left, take_left]
  rw [strrchr, isBuffer, finds]
  simp only [Option.bind_eq_bind, Option.bind_some, Option.pure_def]
  rw [isTaken, lastOf_concat, if_neg (by decide)]

/-- The host and its last components. -/
theorem hostSuffixes_text
    (shape : canon.Shape front host path)
    (noNull : (0 : UInt8) ∉ host)
    (notDot : host.head? ≠ some 0x2e) :
    ∃ places, hostSuffixes canon = some (places.map (front.length + ·)) ∧
        HostTexts host places components 0 ∧
        ∀ place ∈ places, place ≤ host.length := by
  obtain ⟨back, isBuffer, -⟩ := shape.buffer
  rw [hostSuffixes, isBuffer, shape.hostBegin, strrchr_text front host back noNull]
  cases isLast : lastOf 0x2e host with
  | none =>
    refine ⟨[0], rfl, HostTexts.whole ?_ _, by simp⟩
    rw [count_eq_zero_of_not_mem (lastOf_eq_none isLast)]
    exact Nat.zero_lt_two
  | some dot =>
    obtain ⟨before, behind, isHost, isDot, noDot⟩ := lastOf_eq_some isLast
    obtain ⟨places, loops, isTexts, below⟩ :=
      @hostLoop_text front host (0x2f :: 0 :: back) notDot components before
        behind 0 isHost (count_eq_zero_of_not_mem noDot)
    rw [isDot] at loops
    refine ⟨places, loops, isTexts, fun place mem => ?_⟩
    have := below place mem
    rw [isHost, length_append]
    omega

/-- The loop over the slashes of the path. -/
theorem pathLoop_text
    {path back : List UInt8}
    (noNull : (0 : UInt8) ∉ path)
    (free : Nat)
    (previous)
    (inside : previous < path.length) :
    ∃ slashes,
      pathLoop (front ++ path ++ 0 :: back) front.length free previous = some slashes ∧
        (∀ s ∈ slashes, previous < s ∧ path[s]? = some 0x2f) ∧ slashes.Pairwise (· < ·) ∧
        (0 < free → (slashes = [] ↔ (0x2f : UInt8) ∉ path.drop (previous + 1))) := by
  induction free generalizing previous with
  | zero =>
    exact ⟨[], rfl, by simp, List.Pairwise.nil, fun less => (lt_irrefl 0 less).elim⟩
  | succ free ih =>
    have isRest : (front ++ path ++ 0 :: back).drop
        (front.length + previous + 1) = path.drop (previous + 1) ++ 0 :: back := by
      rw [append_assoc, add_assoc, drop_length_add_append, drop_append_of_le_length inside]
    have finds := strchr_text (c := 0x2f) isRest
      (fun mem => noNull (mem_of_mem_drop mem)) (by decide)
    rw [pathLoop, finds]
    simp only [Option.bind_eq_bind, Option.bind_some]
    cases isIdx : (path.drop (previous + 1)).idxOf? 0x2f with
    | none =>
      refine ⟨[], rfl, by simp, List.Pairwise.nil, fun _ => ?_⟩
      simpa using idxOf?_eq_none_iff.mp isIdx
    | some k =>
      obtain ⟨isInside, isChar, -⟩ := findIdx?_eq_some_iff_getElem.mp isIdx
      have isSlash : path[previous + 1 + k]? = some 0x2f := by
        rw [← getElem?_drop, getElem?_eq_getElem isInside]
        simpa using isChar
      have isPlace : front.length + previous + 1 + k - front.length = previous + 1 + k := by omega
      rw [length_drop] at isInside
      obtain ⟨slashes, loops, isSlashes, ascending, -⟩ := ih (previous + 1 + k) (by omega)
      simp only [Option.map_some, isPlace, loops, Option.bind_some, Option.pure_def]
      refine ⟨_, rfl, ?_, ?_, fun _ => ?_⟩
      · intro s mem
        rcases mem_cons.mp mem with rfl | inRest
        · exact ⟨by omega, isSlash⟩
        · obtain ⟨behind, isS⟩ := isSlashes s inRest
          exact ⟨by omega, isS⟩
      · exact pairwise_cons.mpr ⟨fun s mem => (isSlashes s mem).1, ascending⟩
      · refine iff_of_false (cons_ne_nil _ _) fun notThere => notThere ?_
        rw [mem_iff_getElem?]
        exact ⟨k, by rw [getElem?_drop, isSlash]⟩

/-- The lengths of the paths that are looked up. -/
structure PathLengths (path : List UInt8) (whole slashes : List Nat) : Prop where
  whole : ∀ length ∈ whole, path[length]? ≠ some 0x2f
  slash : ∀ s ∈ slashes, 0 < s ∧ path[s]? = some 0x2f
  ascending : slashes.Pairwise (· < ·)
  none : slashes = [] ↔ (0x2f : UInt8) ∉ path.drop 1

/-- The path and its parts up to a slash. -/
theorem pathPrefixes_text
    (shape : canon.Shape front host path)
    (noNull : (0 : UInt8) ∉ path) :
    ∃ whole slashes, pathPrefixes canon = some (whole ++ 0 :: slashes) ∧
        PathLengths path whole slashes := by
  obtain ⟨back, isBuffer, isPath⟩ := shape.buffer
  rw [pathPrefixes, shape.pathLen]
  rcases path with _ | ⟨c, rest⟩
  · refine ⟨[], [], ?_, by simp, by simp, List.Pairwise.nil, by simp⟩
    cases canon.path <;> rfl
  obtain ⟨isPlace, more, rfl⟩ := isPath (cons_ne_nil _ _)
  generalize isPathText : c :: rest = path at *
  have nonempty : 0 < path.length := by
    rw [← isPathText]
    exact Nat.succ_pos _
  have isFront : front.length + host.length + 2 = (front ++ host ++ [0x2f, 0]).length := by
    simp [add_assoc]
  have isText : front ++ host ++ 0x2f :: 0 :: (path ++ 0 :: more) =
      front ++ host ++ [0x2f, 0] ++ path ++ 0 :: more := by
    simp
  rw [isText] at isBuffer
  simp only [isPlace, isBuffer, isFront]
  generalize front ++ host ++ [0x2f, 0] = begun at *
  have spans : strcspn (begun ++ path ++ 0 :: more) begun.length [0x3f] =
      some (path.takeWhile fun d => !([0x3f].contains d)).length := by
    rw [strcspn, find_text begun path more (by simp), takeWhile_or_of_not_mem noNull]
    simp
  -- the byte at the end of the first part is the question mark
  have notSlash : path[(path.takeWhile fun d => !([0x3f].contains d)).length]? ≠ some 0x2f := by
    intro isSlash
    cases Separators.stops_behind_takeWhile isSlash
  rw [if_neg (by omega), spans]
  simp only [Option.bind_eq_bind, Option.bind_some]
  generalize (path.takeWhile fun d => !([0x3f].contains d)).length = query at *
  have isWhole : ∀ whole : List Nat,
      (if query ≠ path.length then [path.length, query] else [path.length]) = whole →
      whole.length ≤ 2 ∧ ∀ length ∈ whole, path[length]? ≠ some 0x2f := by
    rintro whole rfl
    split
    · simp [notSlash]
    · simp
  generalize (if query ≠ path.length then [path.length, query] else
    [path.length]) = whole at *
  obtain ⟨few, noSlash⟩ := isWhole whole rfl
  have enough : 0 < components + 1 - whole.length := by
    unfold components
    omega
  obtain ⟨slashes, loops, isSlashes, ascending, isNone⟩ :=
    @pathLoop_text begun path more noNull (components + 1 - whole.length) 0 nonempty
  refine ⟨whole, slashes, ?_, noSlash, isSlashes, ascending, isNone enough⟩
  rw [loops]
  rfl

theorem lookupText_text
    (shape : canon.Shape front host path)
    {place : Nat}
    (inside : place ≤ host.length)
    (length : Nat) :
    lookupText canon (front.length + place) length =
      host.drop place ++ 0x2f :: path.take length := by
  obtain ⟨back, isBuffer, -⟩ := shape.buffer
  have isTaken : (canon.buf.drop (front.length + place)).take
      (host.length - place + 1) = host.drop place ++ [0x2f] := by
    rw [isBuffer, append_assoc, drop_length_add_append,
      drop_append_of_le_length inside, ← length_drop,
      take_length_add_append]
    rfl
  have isLength : front.length + host.length - (front.length + place) + 1 =
      host.length - place + 1 := by omega
  rw [lookupText, shape.hostBegin, shape.hostLen, isLength, isTaken, shape.pathText]
  simp

/-- The texts in the order of the lookups: the deepest path first. -/
def textsOf
    (hosts : List (List UInt8))
    (path : List UInt8)
    (lengths : List Nat) :
    List (List UInt8) :=
  lengths.reverse.flatMap fun length => hosts.map fun host => host ++ 0x2f :: path.take length

/-- The texts are hosts with parts of the path. -/
theorem lookupTexts_text
    (shape : canon.Shape front host path)
    (hostNull : (0 : UInt8) ∉ host)
    (pathNull : (0 : UInt8) ∉ path)
    (notDot : host.head? ≠ some 0x2e) :
    ∃ places whole slashes, HostTexts host places components 0 ∧
        (∀ place ∈ places, place ≤ host.length) ∧
        PathLengths path whole slashes ∧
        lookupTexts canon = some (textsOf (places.map host.drop) path (whole ++ 0 :: slashes)) := by
  obtain ⟨places, isHosts, isTexts, inside⟩ := hostSuffixes_text shape hostNull notDot
  obtain ⟨whole, slashes, isPaths, isLengths⟩ := pathPrefixes_text shape pathNull
  refine ⟨places, whole, slashes, isTexts, inside, isLengths, ?_⟩
  rw [lookupTexts, isHosts, isPaths]
  simp only [Option.bind_eq_bind, Option.bind_some, Option.pure_def, textsOf]
  congr 2
  funext length
  rw [map_map, map_map]
  apply map_congr_left
  intro place mem
  exact lookupText_text shape (inside place mem) length

/-- What `url_hash_match` looks up for a URL. -/
theorem cliUrlCanon_lookups
    {inurl : List UInt8}
    (short : inurl.length ≤ 1024)
    (noNull : (0 : UInt8) ∉ inurl)
    {canon : Canon}
    (isCanon : cliUrlCanon inurl = some (some canon)) :
    ∃ places whole slashes, (0x2f : UInt8) ∉ canon.hostText ∧
        HostTexts canon.hostText places components 0 ∧
        (∀ place ∈ places, place ≤ canon.hostText.length) ∧
        PathLengths canon.pathText whole slashes ∧
        lookupTexts canon = some (textsOf (places.map canon.hostText.drop)
          canon.pathText (whole ++ 0 :: slashes)) := by
  obtain ⟨front, text, shape, textNull, notDot⟩ := cliUrlCanon_shape short noNull isCanon
  have lowered : ∀ c : UInt8, tolower c = 0 → c = 0 := by decide +kernel
  have hostNull : (0 : UInt8) ∉ (hostOf text).map tolower := by
    intro mem
    obtain ⟨c, isMember, isNull⟩ := mem_map.mp mem
    rw [lowered c isNull] at isMember
    exact textNull (( takeWhile_prefix _).mem isMember)
  have pathNull : (0 : UInt8) ∉ pathOf text := fun mem => textNull ((pathOf_suffix text).mem mem)
  obtain ⟨places, whole, slashes, isTexts, inside, isLengths, isLookups⟩ :=
    lookupTexts_text shape hostNull pathNull notDot
  rw [shape.hostText, shape.pathText]
  exact ⟨places, whole, slashes, slash_not_mem_host text, isTexts, inside, isLengths, isLookups⟩

end LibClamav.Phish
