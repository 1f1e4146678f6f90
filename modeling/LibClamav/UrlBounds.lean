import LibClamav.UrlSegments

namespace LibClamav.Phish

open CheckedBuffer List Option

/-!
# Accesses of `cli_url_canon`

The last byte of the buffer stays zero up to the insertion of the terminator,
which ends every search in it.  Only the move that makes room for the terminator
can leave the buffer: its length is counted from `url`, its target from
`host_begin`.
-/

variable {start stop p : Nat} {c : UInt8}

section

/-- A buffer of `url_hash_match` with its last zero byte. -/
structure Guarded (buf : List UInt8) : Prop where
  length : buf.length = 1027
  guard : buf[1026]? = some 0

variable {buf : List UInt8}

theorem guarded_iff : Guarded buf ↔ buf.length = 1027 ∧ buf.getLast? = some 0 := by
  constructor
  · rintro ⟨length, guard⟩
    exact ⟨length, by rw [getLast?_eq_getElem?, length, guard]⟩
  · rintro ⟨length, isLast⟩
    exact ⟨length, by rw [← isLast, getLast?_eq_getElem?, length]⟩

/-- Every byte of the buffer can be read. -/
theorem Guarded.read
    (guarded : Guarded buf)
    {i : Nat}
    (inside : i < 1027) :
    ∃ c, CheckedBuffer.read buf i = some c ∧ buf[i]? = some c := by
  have isInside : i < buf.length := by rw [guarded.length]; exact inside
  exact ⟨buf[i], read_of_lt isInside, getElem?_eq_getElem isInside⟩

/-- A write before the last byte leaves it guarded. -/
theorem Guarded.write
    (guarded : Guarded buf)
    {i : Nat}
    (v : UInt8)
    (inside : i < 1026) :
    ∃ later, CheckedBuffer.write buf i v = some later ∧ Guarded later ∧
      later[i]? = some v ∧ ∀ j, j ≠ i → later[j]? = buf[j]? := by
  have isInside : i < buf.length := by rw [guarded.length]; omega
  have others : ∀ j, j ≠ i → (buf.set i v)[j]? = buf[j]? :=
    fun j differs => getElem?_set_ne (Ne.symm differs)
  refine ⟨buf.set i v, write_of_lt v isInside, ⟨?_, ?_⟩, ?_, others⟩
  · rw [length_set, guarded.length]
  · rw [others 1026 (by omega), guarded.guard]
  · rw [getElem?_set_self isInside]

/-- So does a move before the last byte. -/
theorem Guarded.move
    (guarded : Guarded buf)
    {dst src n : Nat}
    (dstInside : dst + n ≤ 1026)
    (srcInside : src + n ≤ 1027) :
    ∃ later, CheckedBuffer.move buf dst src n = some later ∧ Guarded later ∧
      Moved buf later dst src n := by
  obtain ⟨later, moves, moved⟩ := @move_of_le _ buf n dst src
    (by rw [guarded.length]; omega) (by rw [guarded.length]; omega)
  refine ⟨later, moves, ⟨by rw [moved.length, guarded.length], ?_⟩, moved⟩
  rw [moved.outside 1026 (.inr dstInside), guarded.guard]

/-- A search ends at the last byte. -/
theorem Guarded.strchr
    (guarded : Guarded buf)
    {i : Nat}
    {c : UInt8}
    (inside : i ≤ 1026)
    (notNull : c ≠ 0) :
    ∃ found, Phish.strchr buf i c = some found ∧
      ∀ p, found = some p → i ≤ p ∧ p < 1026 ∧ buf[p]? = some c ∧
        ∀ q, i ≤ q → q < p → buf[q]? ≠ some c := by
  obtain ⟨p, b, finds, isFrom, isTo, isCell, stops, before⟩ :=
    @find_of_stop _ (fun b => b == c || b == 0) buf i 1026 0 inside guarded.guard (by simp)
  refine ⟨_, by rw [Phish.strchr, finds, bind_eq_bind, bind_some,
    CheckedBuffer.read, isCell]; rfl, ?_⟩
  intro q isFound
  split at isFound
  · rename_i isChar
    cases isFound
    subst isChar
    refine ⟨isFrom, ?_, isCell, ?_⟩
    · rcases Nat.lt_or_eq_of_le isTo with isBefore | isGuard
      · exact isBefore
      · rw [isGuard, guarded.guard] at isCell
        exact absurd (some.inj isCell).symm notNull
    · intro q isFrom' isBefore isThere
      have := before q _ isFrom' isBefore isThere
      simp at this
  · cases isFound

end

/-- The bytes between two places of a buffer. -/
def region (buf : List UInt8) (start stop : Nat) : List UInt8 :=
  (buf.drop start).take (stop - start)

/-- A region is its bytes. -/
theorem region_congr
    {buf later : List UInt8}
    {start' stop' : Nat}
    (sameLength : stop - start = stop' - start')
    (same : ∀ i, i < stop - start → later[start + i]? = buf[start' + i]?) :
    region later start stop = region buf start' stop' := by
  apply ext_getElem?
  intro i
  unfold region
  rw [← sameLength]
  by_cases inside : i < stop - start
  · rw [getElem?_take_of_lt inside, getElem?_take_of_lt inside,
      getElem?_drop, getElem?_drop, same i inside]
  · rw [getElem?_take_eq_none (by omega), getElem?_take_eq_none (by omega)]

theorem region_append
    (buf : List UInt8)
    {start middle stop : Nat}
    (isFrom : start ≤ middle)
    (isTo : middle ≤ stop) :
    region buf start stop = region buf start middle ++ region buf middle stop := by
  unfold region
  rw [show stop - start = (middle - start) + (stop - middle) by omega, take_add, drop_drop]
  congr 3
  omega

theorem region_text
    (front text back : List UInt8) :
    region (front ++ text ++ back) front.length (front.length + text.length) = text := by
  rw [region, Nat.add_sub_cancel_left, append_assoc, drop_left, take_left]

section

variable {buf : List UInt8}

/-- The test for a segment stays inside. -/
theorem Guarded.segmentAt
    (guarded : Guarded buf)
    {p urlend : Nat}
    (inside : urlend < 1027) :
    ∃ segment, Phish.segmentAt buf p urlend = some segment ∧
      (segment ≠ .other → p + 2 < urlend ∧ buf[p]? = some 0x2f) := by
  unfold Phish.segmentAt
  split
  swap
  · exact ⟨.other, rfl, fun differs => absurd rfl differs⟩
  rename_i below
  obtain ⟨a, readsA, isA⟩ := guarded.read (i := p) (by omega)
  obtain ⟨b, readsB, -⟩ := guarded.read (i := p + 1) (by omega)
  obtain ⟨c, readsC, -⟩ := guarded.read (i := p + 2) (by omega)
  obtain ⟨d, readsD, -⟩ := guarded.read (i := p + 3) (by omega)
  simp only [readsA, readsB, readsC, readsD, bind_eq_bind, bind_some]
  by_cases isSlash : a = 0x2f
  · subst isSlash
    rw [if_pos rfl]
    split_ifs
    all_goals exact ⟨_, rfl, fun _ => ⟨below, isA⟩⟩
  · rw [if_neg isSlash]
    exact ⟨.other, rfl, fun differs => absurd rfl differs⟩

/-- Moving the rest down stays inside and shortens the text. -/
theorem Guarded.moveRest
    (guarded : Guarded buf)
    {start dst src urlend shorter : Nat}
    (isFrom : start < dst)
    (before : dst ≤ src)
    (inside : urlend < 1027)
    (isShorter : shorter + (src - dst) = urlend) :
    ∃ later, Phish.moveRest buf dst src urlend = some later ∧ Guarded later ∧
      later[start]? = buf[start]? ∧
        (region later start shorter).Sublist (region buf start urlend) := by
  unfold Phish.moveRest
  split_ifs with isBelow
  · obtain ⟨later, moves, isGuarded, moved⟩ := @Guarded.move buf guarded dst src
      (urlend - src) (by omega) (by omega)
    refine ⟨later, moves, isGuarded, moved.outside start (.inl isFrom), ?_⟩
    have kept : region later start dst = region buf start dst := region_congr rfl fun i isInside =>
        moved.outside (start + i) (Or.inl (by omega))
    have rest : region later dst shorter = region buf src urlend :=
      region_congr (by omega) fun i isInside => by
        rw [moved.inside (dst + i) (by omega) (by omega), Nat.add_sub_cancel_left]
    rw [@region_append later start dst shorter (by omega) (by omega),
      @region_append buf start dst urlend (by omega) (by omega),
      @region_append buf dst src urlend before (by omega), kept, rest]
    exact (List.Sublist.refl _).append (sublist_append_right _ _)
  · refine ⟨buf, rfl, guarded, rfl, ?_⟩
    by_cases isEmpty : shorter ≤ start
    · rw [region, Nat.sub_eq_zero_of_le isEmpty, take_zero]
      exact nil_sublist _
    · rw [@region_append buf start shorter urlend (by omega) (by omega)]
      exact sublist_append_left _ _

/-- `last` lies between the host and the cursor, or no slash is before it. -/
def LastSlash (buf : List UInt8) (hostBegin p : Nat) (last : Option Nat) : Prop :=
  ∀ l, last = some l → hostBegin ≤ l ∧ (l ≤ p ∨ ∀ q, p ≤ q → q < l → buf[q]? ≠ some 0x2f)

variable {hostBegin : Nat} (fuel : Nat)

/-- The last slash is not behind the one that was found. -/
theorem LastSlash.le
    {l : Nat}
    (lastSlash : LastSlash buf hostBegin p (some l))
    (isSlash : buf[p]? = some 0x2f) :
    hostBegin ≤ l ∧ l ≤ p := by
  obtain ⟨isFrom, isTo | noSlash⟩ := lastSlash l rfl
  · exact ⟨isFrom, isTo⟩
  · refine ⟨isFrom, ?_⟩
    by_contra isLater
    exact noSlash p (Nat.le_refl _) (by omega) isSlash

/-- Removing a segment stays inside and shortens the text. -/
theorem Guarded.removeSegment
    (guarded : Guarded buf)
    {urlend : Nat}
    {last : Option Nat}
    (lastSlash : LastSlash buf hostBegin p last)
    (isFrom : hostBegin ≤ p)
    (below : p < urlend)
    (inside : urlend < 1026) :
    ∃ later shorter, Phish.removeSegment buf p urlend last = some (later, shorter) ∧
        Guarded later ∧ hostBegin ≤ shorter ∧ shorter ≤ urlend ∧
        LastSlash later hostBegin (p + 1) last ∧ later[hostBegin]? = buf[hostBegin]? ∧
        (region later hostBegin shorter).Sublist (region buf hostBegin urlend) := by
  obtain ⟨segment, isSegment, known⟩ := @Guarded.segmentAt buf guarded p urlend (by omega)
  have passed (l : Nat) (isLast : last = some l)
      (isSlash : buf[p]? = some 0x2f) : hostBegin ≤ l ∧ l ≤ p := by
    subst isLast
    exact lastSlash.le isSlash
  unfold Phish.removeSegment
  rw [isSegment, bind_eq_bind, bind_some]
  cases segment with
  | dot =>
    obtain ⟨room, isSlash⟩ := known (by decide)
    obtain ⟨later, moves, isGuarded, isFirst, isPart⟩ := @Guarded.moveRest buf guarded
      hostBegin (p + 1) (p + 3) urlend (urlend - 2) (by omega) (by omega)
      (by omega) (by omega)
    simp only [moves]
    refine ⟨later, urlend - 2, rfl, isGuarded, by omega, by omega, ?_, isFirst, isPart⟩
    intro l isLast
    have := passed l isLast isSlash
    exact ⟨this.1, .inl (by omega)⟩
  | dotdot =>
    obtain ⟨room, isSlash⟩ := known (by decide)
    cases last with
    | none =>
      exact ⟨buf, urlend, rfl, guarded, by omega, Nat.le_refl _,
        nofun, rfl, List.Sublist.refl _⟩
    | some l =>
      obtain ⟨isFrom', isTo⟩ := passed l rfl isSlash
      obtain ⟨later, moves, isGuarded, isFirst, isPart⟩ := @Guarded.moveRest buf
        guarded hostBegin (l + 1) (p + 4) urlend (urlend - (3 + (p - l)))
        (by omega) (by omega) (by omega) (by omega)
      simp only [moves]
      refine ⟨later, urlend - (3 + (p - l)), rfl, isGuarded, by omega, by omega, ?_, isFirst,
        isPart⟩
      intro l' isLast
      cases isLast
      exact ⟨isFrom', .inl (by omega)⟩
  | other =>
    refine ⟨buf, urlend, rfl, guarded, by omega, Nat.le_refl _, ?_, rfl, List.Sublist.refl _⟩
    intro l isLast
    obtain ⟨isFrom', isTo | noSlash⟩ := lastSlash l isLast
    · exact ⟨isFrom', .inl (by omega)⟩
    · exact ⟨isFrom', .inr fun q isQ => noSlash q (by omega)⟩

/-- So does the loop over the segments. -/
theorem Guarded.dotSegments
    {urlend : Nat}
    {last : Option Nat}
    (guarded : Guarded buf)
    (lastSlash : LastSlash buf hostBegin p last)
    (isFrom : hostBegin ≤ p)
    (begun : hostBegin ≤ urlend)
    (inside : urlend < 1026)
    (isRound : 0 < fuel)
    (enough : urlend < p + fuel) :
    ∃ later shorter, Phish.dotSegments fuel buf p urlend last = some (later, shorter) ∧
      Guarded later ∧ hostBegin ≤ shorter ∧ shorter ≤ urlend ∧
      later[hostBegin]? = buf[hostBegin]? ∧
      (region later hostBegin shorter).Sublist (region buf hostBegin urlend) := by
  induction fuel generalizing buf p urlend last with
  | zero => exact absurd isRound (Nat.lt_irrefl 0)
  | succ fuel ih =>
    rw [Phish.dotSegments]
    split
    swap
    · exact ⟨buf, urlend, rfl, guarded, begun, Nat.le_refl _, rfl, List.Sublist.refl _⟩
    rename_i below
    obtain ⟨later, shorter, removes, isGuarded, begun', isShorter, lastSlash', isFirst,
      isPart⟩ := guarded.removeSegment lastSlash isFrom below inside
    obtain ⟨c, reads, isCell⟩ := isGuarded.read (i := p) (by omega)
    simp only [removes, bind_eq_bind, bind_some, reads]
    have nextSlash : LastSlash later hostBegin (p + 1) (if c = 0x2f then some p else last) := by
      split
      · intro l isLast
        cases isLast
        exact ⟨isFrom, .inl (Nat.le_succ _)⟩
      · exact lastSlash'
    obtain ⟨final, shortest, loops, finalGuarded, finalBegun, isShortest, finalFirst,
      restPart⟩ := ih isGuarded nextSlash (by omega) begun' (by omega) (by omega) (by omega)
    exact ⟨final, shortest, loops, finalGuarded, finalBegun, by omega,
      finalFirst.trans isFirst, restPart.trans isPart⟩

end

section

/-- The state before the terminator is inserted. -/
structure CanonState.Ready (state : CanonState) : Prop where
  guarded : Guarded state.buf
  urlFirst : state.url ≤ state.hostBegin
  hostFirst : state.hostBegin ≤ state.urlend
  inside : state.urlend ≤ 1025
  terminated : state.buf[state.urlend]? = some 0

variable {front text back : List UInt8} {url : Nat}

/-- A part of the text is left, and its first byte is never moved. -/
theorem canonDots_sublist
    (guarded : Guarded (front ++ text ++ back))
    (inside : front.length + text.length ≤ 1024) :
    ∃ front' kept back', canonDots ⟨front ++ text ++ back, url, front.length,
          front.length + text.length⟩ =
        some ⟨front' ++ kept ++ back', url, front'.length, front'.length + kept.length⟩ ∧
      Guarded (front' ++ kept ++ back') ∧ front'.length = front.length ∧ kept.Sublist text ∧
      ∀ c, kept.head? = some c → text.head? = some c := by
  obtain ⟨last, finds, isLast⟩ := @Guarded.strchr _ guarded front.length 0x2f (by omega) (by decide)
  have lastSlash : LastSlash (front ++ text ++ back) front.length front.length last := by
    intro l isSome
    obtain ⟨isFrom, -, -, before⟩ := isLast l isSome
    exact ⟨isFrom, .inr before⟩
  obtain ⟨buf, shorter, removes, guarded1, begun, isShorter, isFirst, isPart⟩ :=
    guarded.dotSegments (front.length + text.length + 1) lastSlash (Nat.le_refl _)
      (Nat.le_add_right _ text.length) (by omega) (by omega) (by omega)
  obtain ⟨cut, writes, guarded2, -, others⟩ := @Guarded.write buf guarded1 shorter 0 (by omega)
  have isLength := guarded2.length
  have isFront : (cut.take front.length).length = front.length := by
    rw [length_take]
    omega
  have isKept : front.length + (region cut front.length shorter).length = shorter := by
    rw [region, length_take, length_drop]
    omega
  have isCut : cut.take front.length ++ region cut front.length shorter ++
      (cut.drop front.length).drop (shorter - front.length) = cut := by
    rw [append_assoc, region, take_append_drop, take_append_drop]
  have sameText : region cut front.length shorter = region buf front.length shorter :=
    region_congr rfl fun i isInside => others _ (by omega)
  rw [← sameText, region_text] at isPart
  refine ⟨cut.take front.length, region cut front.length shorter, _, ?_,
    isCut.symm ▸ guarded2, isFront, isPart, ?_⟩
  · unfold canonDots
    simp only [finds, removes, writes, bind_eq_bind, bind_some, Option.pure_def]
    rw [isCut, isFront, isKept]
  · intro c isHead
    rw [region, head?_take, head?_drop] at isHead
    split_ifs at isHead with isEmpty
    rw [others _ (by omega), isFirst, append_assoc, getElem?_append_right (Nat.le_refl _),
      Nat.sub_self, getElem?_append_left (by omega)] at isHead
    rw [head?_eq_getElem?, isHead]

/-- The loop that escapes stays inside and may stop early. -/
theorem canonEscape_text
    (guarded : Guarded (front ++ text ++ back))
    (urlFirst : url ≤ front.length)
    (inside : front.length + text.length ≤ 1024) :
    ∃ kept rest, kept <+: text ∧
      canonEscape ⟨front ++ text ++ back, url, front.length, front.length + text.length⟩ =
        some ⟨front ++ escapeText kept ++ 0 :: rest, url, front.length,
          front.length + (escapeText kept).length⟩ ∧
      (CanonState.mk (front ++ escapeText kept ++ 0 :: rest) url front.length
        (front.length + (escapeText kept).length)).Ready ∧
      (1 ≤ url → front.length + (escapeText text).length < 1024 → kept = text) := by
  obtain ⟨isLength, isNull⟩ := guarded_iff.mp guarded
  have lengths := isLength
  rw [length_append, length_append] at lengths
  obtain ⟨kept, later, isPrefix, escapes, laterLength, isLast, isTo, whole⟩ :=
    @escapeLoop_text url text (front.length + text.length + 1) front back (by omega) isLength
      (by omega)
  have laterGuarded : Guarded (front ++ escapeText kept ++ later) := by
    have laterLengths := laterLength
    rw [length_append, length_append] at laterLengths
    refine guarded_iff.mpr ⟨laterLength, ?_⟩
    rw [getLast?_append_of_ne_nil _ (ne_nil_of_length_pos (by omega))] at isNull ⊢
    rw [isLast, isNull]
  obtain ⟨x, rest, rfl⟩ : ∃ x rest, later = x :: rest := by
    refine exists_cons_of_ne_nil fun isNil => ?_
    rw [isNil, append_nil, length_append] at laterLength
    omega
  obtain ⟨_, writes, isGuarded, terminated, -⟩ :=
    laterGuarded.write (i := front.length + (escapeText kept).length) 0 (by omega)
  have isWritten := write_append (front ++ escapeText kept) rest x 0
  rw [length_append] at isWritten
  cases isWritten.symm.trans writes
  refine ⟨kept, rest, isPrefix, ?_,
    ⟨isGuarded, urlFirst, Nat.le_add_right _ _, isTo, terminated⟩, whole⟩
  unfold canonEscape
  simp only [escapes, isWritten, bind_eq_bind, bind_some, Option.pure_def]

/--
What is returned for a text before it is escaped: a front part of the text may
be all that is left, and the terminator may not fit in.
-/
theorem canon_of_segments
    {inurl : List UInt8}
    (isSegments : canonSegments inurl = some (some ⟨front ++ text ++ back, url, front.length,
        front.length + text.length⟩))
    (guarded : Guarded (front ++ text ++ back))
    (urlFirst : url ≤ front.length)
    (inside : front.length + text.length ≤ 1024) :
    ∃ kept rest, kept <+: text ∧
      (1 ≤ url → front.length + (escapeText text).length < 1024 → kept = text) ∧
      canonText inurl = some (some ⟨front ++ escapeText kept ++ 0 :: rest, url, front.length,
        front.length + (escapeText kept).length⟩) ∧
      (if front.length + (escapeText kept).length + (front.length - url) ≤ 1025 then
        ∃ canon, cliUrlCanon inurl = some (some canon) ∧
          canon.Shape front ((hostOf (escapeText kept)).map tolower) (pathOf (escapeText kept))
      else cliUrlCanon inurl = none) := by
  obtain ⟨kept, rest, isPrefix, escapes, ready, whole⟩ := canonEscape_text guarded urlFirst inside
  have isText : canonText inurl = some (some ⟨front ++ escapeText kept ++ 0 :: rest, url,
      front.length, front.length + (escapeText kept).length⟩) := by
    rw [canonText, isSegments]
    simp only [escapes, bind_eq_bind, bind_some, Option.pure_def]
  have noNull : (0 : UInt8) ∉ escapeText kept :=
    not_mem_escapeText (by decide) (by decide) (by decide) kept
  refine ⟨kept, rest, isPrefix, whole, isText, ?_⟩
  rw [cliUrlCanon, isText]
  simp only [bind_eq_bind, bind_some]
  split_ifs with room
  · obtain ⟨canon, splits, shape⟩ := splitPath_shape front (escapeText kept) rest
      ready.guarded.length urlFirst room noNull
      (not_mem_escapeText (by decide) (by decide) (by decide) kept)
    exact ⟨canon, by rw [splits]; rfl, shape⟩
  · rw [splitPath_eq_none front (escapeText kept) rest ready.guarded.length urlFirst ready.inside
      room noNull]
    rfl

variable {inurl : List UInt8} (text : List UInt8)

/-- The buffer holds the URL and null bytes. -/
theorem copyUrl_eq
    (short : inurl.length ≤ 1024) :
    copyUrl inurl = inurl ++ replicate (1027 - inurl.length) 0 := by
  unfold copyUrl urlMaxLen
  rw [take_of_length_le short, append_assoc,
    show [0, 0, 0] = replicate 3 (0 : UInt8) from rfl,
    replicate_append_replicate]
  congr 2
  omega

theorem copyUrl_split
    (short : inurl.length ≤ 1024)
    (hostBegin : Nat) :
    copyUrl inurl = inurl.take hostBegin ++ (inurl.drop hostBegin ++ [0]) ++
      replicate (1026 - inurl.length) 0 := by
  rw [copyUrl_eq short, append_assoc, append_assoc,
    ← append_assoc (inurl.take hostBegin), take_append_drop,
    show [0] = replicate 1 (0 : UInt8) from rfl,
    replicate_append_replicate]
  congr 2
  omega

/-- The loop over the first slashes. -/
theorem skipSlashes_text
    (fuel : Nat)
    (front back : List UInt8)
    (enough : text.length < fuel) :
    skipSlashes fuel (front ++ text ++ back) front.length (front.length + text.length) =
      some (front.length + (text.takeWhile (· == 0x2f)).length) := by
  induction text generalizing fuel front back with
  | nil =>
    obtain ⟨fuel, rfl⟩ := Nat.exists_eq_add_one.mpr (by omega : 0 < fuel)
    rw [skipSlashes, if_neg (by simp)]
    rfl
  | cons c rest ih =>
    obtain ⟨fuel, rfl⟩ := Nat.exists_eq_add_one.mpr (by omega : 0 < fuel)
    have reads : read (front ++ c :: rest ++ back) front.length = some c := read_first
    rw [skipSlashes, if_pos (by simp), reads, bind_eq_bind, bind_some]
    by_cases isSlash : c = 0x2f
    · have skips := ih fuel (front ++ [c]) back (Nat.lt_of_succ_lt_succ enough)
      rw [if_pos isSlash, takeWhile_cons_of_pos (by simpa using isSlash)]
      simp only [append_assoc, cons_append, nil_append,
        length_append, length_cons, length_nil] at skips ⊢
      rw [show front.length + (rest.length + 1) =
        front.length + (0 + 1) + rest.length by omega, skips]
      congr 1
      omega
    · rw [if_neg isSlash, takeWhile_cons_of_neg (by simpa using isSlash)]
      rfl

/-- The loop over the first dots. -/
theorem skipDots_text
    (fuel : Nat)
    (front back : List UInt8)
    (enough : text.length < fuel)
    (more : back ≠ []) :
    skipDots fuel (front ++ text ++ back) front.length (front.length + text.length) =
      some (front.length + (text.takeWhile (· == 0x2e)).length) := by
  induction text generalizing fuel front back with
  | nil =>
    obtain ⟨fuel, rfl⟩ := Nat.exists_eq_add_one.mpr (by omega : 0 < fuel)
    obtain ⟨c, rest, rfl⟩ := exists_cons_of_ne_nil more
    have reads : read (front ++ [] ++ c :: rest) front.length = some c := by
      rw [append_nil]
      exact @read_append_right _ front _ 0
    rw [skipDots, reads, bind_eq_bind, bind_some, if_neg (by simp)]
    rfl
  | cons c rest ih =>
    obtain ⟨fuel, rfl⟩ := Nat.exists_eq_add_one.mpr (by omega : 0 < fuel)
    have reads : read (front ++ c :: rest ++ back) front.length = some c := read_first
    rw [skipDots, reads, bind_eq_bind, bind_some]
    by_cases isDot : c = 0x2e
    · have skips := ih fuel (front ++ [c]) back (Nat.lt_of_succ_lt_succ enough) more
      rw [if_pos ⟨isDot, by simp⟩, takeWhile_cons_of_pos (by simpa using isDot)]
      simp only [append_assoc, cons_append, nil_append,
        length_append, length_cons, length_nil] at skips ⊢
      rw [show front.length + (rest.length + 1) =
        front.length + (0 + 1) + rest.length by omega, skips]
      congr 1
      omega
    · rw [if_neg (by simp [isDot]), takeWhile_cons_of_neg (by simpa using isDot)]
      rfl

/-- The number of slashes and then dots at the start of a text. -/
def leading (text : List UInt8) : Nat :=
  (text.takeWhile (· == 0x2f)).length + ((text.dropWhile (· == 0x2f)).takeWhile (· == 0x2e)).length

theorem splitAt_leading : text.take (leading text) = text.takeWhile (· == 0x2f) ++
        (text.dropWhile (· == 0x2f)).takeWhile (· == 0x2e) ∧
      text.drop (leading text) = (text.dropWhile (· == 0x2f)).dropWhile (· == 0x2e) := by
  have isText : text = text.takeWhile (· == 0x2f) ++
      ((text.dropWhile (· == 0x2f)).takeWhile (· == 0x2e) ++
        (text.dropWhile (· == 0x2f)).dropWhile (· == 0x2e)) := by
    rw [takeWhile_append_dropWhile, takeWhile_append_dropWhile]
  rw [leading]
  constructor
  · nth_rewrite 3 [isText]
    rw [take_length_add_append, take_left]
  · nth_rewrite 3 [isText]
    rw [drop_length_add_append, drop_left]

theorem leading_le : leading text ≤ text.length := by
  have slashes := takeWhile_append_dropWhile (p := (· == 0x2f)) (l := text)
  have dots := (takeWhile_sublist (l := text.dropWhile (· == 0x2f)) (p := (· == 0x2e))).length_le
  have := congrArg length slashes
  rw [length_append] at this
  unfold leading
  omega

/-- No dot stands behind the skipped ones. -/
theorem head?_drop_leading : (text.drop (leading text)).head? ≠ some 0x2e := by
  intro isDot
  have notDot := head?_dropWhile_not (· == 0x2e) (text.dropWhile (· == 0x2f))
  rw [← (splitAt_leading text).2, isDot] at notDot
  cases notDot

theorem skips_to_host
    (front back : List UInt8)
    (more : back ≠ []) :
    (do
      let hostBegin ← skipSlashes (front.length + text.length + 1)
        (front ++ text ++ back) front.length (front.length + text.length)
      let hostBegin ← skipDots (front.length + text.length + 1)
        (front ++ text ++ back) hostBegin (front.length + text.length)
      pure (CanonState.mk (front ++ text ++ back) front.length hostBegin
        (front.length + text.length))) =
      some ⟨front ++ text ++ back, front.length, front.length + leading text,
        front.length + text.length⟩ := by
  have isText := takeWhile_append_dropWhile (p := (· == 0x2f)) (l := text)
  have slashes := skipSlashes_text text (front.length + text.length + 1) front back (by omega)
  have dots := skipDots_text (text.dropWhile (· == 0x2f)) (front.length + text.length + 1)
    (front ++ text.takeWhile (· == 0x2f)) back ?_ more
  · have isEnd : (front ++ text.takeWhile (· == 0x2f)).length +
        (text.dropWhile (· == 0x2f)).length = front.length + text.length := by
      rw [← length_append, append_assoc, isText, length_append]
    rw [isEnd, append_assoc front, isText, length_append] at dots
    simp only [slashes, bind_eq_bind, bind_some]
    rw [dots, leading, Nat.add_assoc]
    rfl
  · have := (dropWhile_sublist (l := text) (p := (· == 0x2f))).length_le
    omega

/-- The text behind the scheme and the user name, decoded. -/
def decodedText (inurl : List UInt8) (hostBegin : Nat) : List UInt8 :=
  decodeText (inurl.drop hostBegin)

/-- The decoded text from the host on. -/
def hostText (inurl : List UInt8) (start : Nat) : List UInt8 :=
  (decodedText inurl start).drop (leading (decodedText inurl start))

/-- The host starts behind what is skipped. -/
theorem canonHost_text
    (short : inurl.length ≤ 1024)
    {hostBegin : Nat}
    (inside : hostBegin ≤ inurl.length) :
    ∃ front back url, canonHost (copyUrl inurl) hostBegin inurl.length =
          some ⟨front ++ hostText inurl hostBegin ++ back, url, front.length,
            front.length + (hostText inurl hostBegin).length⟩ ∧
        Guarded (front ++ hostText inurl hostBegin ++ back) ∧ hostBegin ≤ url ∧
        url + leading (decodedText inurl hostBegin) = front.length ∧
        front.length + (hostText inurl hostBegin).length ≤ inurl.length := by
  obtain ⟨skipped, junk, lengths, decodes⟩ := strHexToChar_text
    (inurl.take hostBegin) (inurl.drop hostBegin ++ [0])
    (replicate (1026 - inurl.length) 0) (by simp)
  have isFront : (inurl.take hostBegin).length = hostBegin := by
    rw [length_take, Nat.min_eq_left inside]
  have isEnd : hostBegin + (inurl.drop hostBegin ++ [0]).length - 1 =
      inurl.length := by
    simp only [length_append, length_drop, length_cons, length_nil]
    omega
  have nonempty : hexToChar (inurl.drop hostBegin ++ [0]) ≠ [] := hexToChar_ne_nil (by simp)
  obtain ⟨last, isLast⟩ : ∃ last, hexToChar (inurl.drop hostBegin ++ [0]) =
      decodedText inurl hostBegin ++ [last] := by
    refine ⟨(hexToChar (inurl.drop hostBegin ++ [0])).getLast nonempty, ?_⟩
    rw [decodedText, ← hexToChar_concat, dropLast_append_getLast]
  rw [isFront, isEnd, ← copyUrl_split short, isLast] at decodes
  rw [isLast] at lengths
  simp only [length_append, length_drop, length_cons, length_nil] at lengths decodes
  have beforeLength : (inurl.take hostBegin ++ skipped).length = hostBegin + skipped.length := by
    rw [length_append, isFront]
  unfold hostText
  generalize decodedText inurl hostBegin = text at *
  generalize inurl.take hostBegin ++ skipped = before at *
  have headLength : (before ++ text.take (leading text)).length = before.length + leading text := by
    rw [length_append, length_take, Nat.min_eq_left (leading_le text)]
  have isHost : before ++ text.take (leading text) ++ text.drop (leading text) =
      before ++ text := by
    rw [append_assoc, take_append_drop]
  have hostEnd : (before ++ text.take (leading text)).length + (text.drop (leading text)).length =
      before.length + text.length := by
    rw [← length_append, isHost, length_append]
  refine ⟨before ++ text.take (leading text),
    [last] ++ (junk ++ replicate (1026 - inurl.length) 0), before.length, ?_, ?_, by omega,
    headLength.symm, by omega⟩
  · have isDecoded : strHexToChar (copyUrl inurl) hostBegin inurl.length =
        some (before ++ text ++ ([last] ++ (junk ++ replicate (1026 - inurl.length) 0)),
          before.length, before.length + text.length) := by
      rw [decodes, beforeLength]
      simp
    unfold canonHost
    rw [isDecoded, isHost, hostEnd, headLength]
    exact skips_to_host text _ _ (cons_ne_nil _ _)
  · rw [isHost]
    refine guarded_iff.mpr ⟨?_, ?_⟩
    · simp only [length_append, beforeLength, length_replicate, length_cons, length_nil]
      omega
    · simp only [← append_assoc]
      rw [getLast?_append_of_ne_nil _ (ne_nil_of_length_pos (by rw [length_replicate]; omega)),
        getLast?_replicate, if_neg (by omega)]

end

theorem findIdx?_char_or_null
    (text back : List UInt8)
    (noNull : (0 : UInt8) ∉ text) :
    (text ++ 0 :: back).findIdx? (fun b => b == c || b == 0) =
      some ((text.idxOf? c).getD text.length) := by
  induction text with
  | nil => simp [findIdx?_cons]
  | cons b rest ih =>
    have notNull : b ≠ 0 := fun isNull => noNull (by simp [isNull])
    have restText := ih (fun mem => noNull (mem_cons_of_mem _ mem))
    rw [cons_append, findIdx?_cons, restText]
    by_cases isChar : b = c
    · simp [isChar, idxOf?, findIdx?_cons]
    have isIdx : (b :: rest).idxOf? c = (rest.idxOf? c).map (· + 1) := by
      simp [idxOf?, findIdx?_cons, isChar]
    rw [isIdx]
    cases rest.idxOf? c <;> simp [isChar, notNull]

/-- The search in a text that ends with a null byte. -/
theorem strchr_text
    {buf text back : List UInt8}
    {i : Nat}
    {c : UInt8}
    (isRest : buf.drop i = text ++ 0 :: back)
    (noNull : (0 : UInt8) ∉ text)
    (notNull : c ≠ 0) :
    strchr buf i c = some ((text.idxOf? c).map (i + ·)) := by
  have finds : find (fun b => b == c || b == 0) buf i =
      some (i + (text.idxOf? c).getD text.length) := by
    rw [find, isRest, findIdx?_char_or_null _ _ noNull]
    rfl
  rw [strchr, finds, bind_eq_bind, bind_some]
  have isCell (k : Nat) : read buf (i + k) = (text ++ 0 :: back)[k]? := by
    rw [CheckedBuffer.read, ← getElem?_drop, isRest]
  rw [isCell]
  cases isIdx : text.idxOf? c with
  | none =>
    rw [getD_none, getElem?_append_right (Nat.le_refl _), Nat.sub_self]
    simp [Ne.symm notNull]
  | some k =>
    obtain ⟨isInside, isChar, -⟩ := findIdx?_eq_some_iff_getElem.mp isIdx
    rw [getD_some, getElem?_append_left isInside, getElem?_eq_getElem isInside]
    have isValue : text[k] = c := by simpa using isChar
    simp [isValue]

variable {inurl : List UInt8}

theorem strchr_copyUrl
    {i : Nat}
    (short : inurl.length ≤ 1024)
    (noNull : (0 : UInt8) ∉ inurl)
    (inside : i ≤ inurl.length)
    (notNull : c ≠ 0) :
    strchr (copyUrl inurl) i c = some (((inurl.drop i).idxOf? c).map (i + ·)) := by
  have isRest : (copyUrl inurl).drop i =
      inurl.drop i ++ 0 :: replicate (1026 - inurl.length) 0 := by
    rw [copyUrl_eq short, drop_append_of_le_length inside,
      show 1027 - inurl.length = 1026 - inurl.length + 1 by omega,
      replicate_succ]
  exact strchr_text isRest (fun mem => noNull (mem_of_mem_drop mem)) notNull

/-- The place behind the scheme and the user name. -/
def hostStart (inurl : List UInt8) : Option Nat :=
  match inurl.idxOf? 0x3a with
  | none => none
  | some colon =>
    match (inurl.drop (colon + 1)).idxOf? 0x40 with
    | none => some (colon + 1)
    | some p => some (colon + 1 + p + 1)

theorem hostStart_le (isStart : hostStart inurl = some start) : start ≤ inurl.length := by
  unfold hostStart at isStart
  split at isStart
  · cases isStart
  rename_i colon isColon
  obtain ⟨colonInside, -⟩ := findIdx?_eq_some_iff_getElem.mp isColon
  split at isStart
  · cases isStart
    exact colonInside
  rename_i p isAt
  obtain ⟨atInside, -⟩ := findIdx?_eq_some_iff_getElem.mp isAt
  cases isStart
  rw [length_drop] at atInside
  omega

/-- The steps up to the removal of segments. -/
theorem canonSegments_eq
    (short : inurl.length ≤ 1024)
    (noNull : (0 : UInt8) ∉ inurl) :
    canonSegments inurl =
      match hostStart inurl with
      | none => some none
      | some start =>
        (canonHost (copyUrl inurl) start inurl.length).bind fun state =>
          (canonDots state).bind fun later => some (some later) := by
  unfold canonSegments hostStart
  simp only [strchr_copyUrl short noNull (Nat.zero_le _)
    (show (0x3a : UInt8) ≠ 0 by decide), drop_zero, Nat.zero_add,
    bind_eq_bind, bind_some]
  cases isColon : inurl.idxOf? 0x3a with
  | none => rfl
  | some colon =>
    obtain ⟨colonInside, -⟩ := findIdx?_eq_some_iff_getElem.mp isColon
    simp only [map_some, strchr_copyUrl short noNull colonInside
      (show (0x40 : UInt8) ≠ 0 by decide), bind_some]
    cases (inurl.drop (colon + 1)).idxOf? 0x40 with
    | none | some p => rfl

theorem countP_decode_le
    (text : List UInt8) :
    (decode text).countP needsEscape ≤ text.countP needsEscape := by
  induction text using decode.induct with
  | case1 c high low rest isEscape ih =>
    rw [decode, if_pos isEscape, countP_cons, countP_cons, countP_cons, countP_cons, isEscape.1,
      if_pos (show needsEscape 0x25 = true from rfl)]
    split <;> omega
  | case2 c high low rest noEscape ih =>
    rw [decode, if_neg noEscape, countP_cons, countP_cons]
    omega
  | case3 short isShort =>
    exact Nat.le_of_eq (congrArg (countP needsEscape) (decode_short isShort))

/-- Decoding gives no more bytes to escape. -/
theorem countP_decodeAll_le
    (text : List UInt8) :
    (decodeAll text).countP needsEscape ≤ text.countP needsEscape := by
  obtain ⟨settled, isSettled, fewer⟩ := lastPass_rule
    (P := fun later => ∃ settled, later = settled ++ [0] ∧
      settled.countP needsEscape ≤ text.countP needsEscape)
    (by
      rintro later ⟨settled, rfl, fewer⟩
      exact ⟨decode settled, unescape_concat settled 0,
        Nat.le_trans (countP_decode_le settled) fewer⟩)
    (text ++ [0]) ⟨text, rfl, Nat.le_refl _⟩
  rw [decodeAll, isSettled, dropLast_concat]
  exact Nat.le_trans (countP_decode_le settled) fewer

theorem countP_decodeText_le
    (text : List UInt8) :
    (decodeText text).countP needsEscape ≤ text.countP needsEscape := by
  unfold decodeText
  split
  · rename_i c next rest
    split_ifs with isPercent
    · subst isPercent
      split
      · exact Nat.zero_le _
      rename_i low rest
      have := countP_decodeAll_le rest
      rw [countP_cons, countP_cons, countP_cons,
        countP_cons, if_pos (show needsEscape 0x25 = true from rfl)]
      split <;> omega
    · have := countP_decodeAll_le (next :: rest)
      rw [countP_cons, countP_cons (a := c)]
      omega
  · exact Nat.le_refl _

/-- The text behind the host has no more bytes to escape. -/
theorem countP_hostText_le
    (inurl : List UInt8)
    (start : Nat) :
    (hostText inurl start).countP needsEscape ≤ inurl.countP needsEscape :=
  calc
    _ ≤ (decodedText inurl start).countP needsEscape := (drop_sublist _ _).countP_le
    _ ≤ (inurl.drop start).countP needsEscape := countP_decodeText_le _
    _ ≤ inurl.countP needsEscape := (drop_sublist start inurl).countP_le

/-- The canonical URL from where its host starts. -/
theorem canon_of_start
    (short : inurl.length ≤ 1024)
    (noNull : (0 : UInt8) ∉ inurl)
    (isStart : hostStart inurl = some start) :
    ∃ front kept rest url,
      canonText inurl = some (some ⟨front ++ escapeText kept ++ 0 :: rest, url, front.length,
        front.length + (escapeText kept).length⟩) ∧
      (if front.length + (escapeText kept).length + (front.length - url) ≤ 1025 then
        ∃ canon, cliUrlCanon inurl = some (some canon) ∧
          canon.Shape front ((hostOf (escapeText kept)).map tolower) (pathOf (escapeText kept))
      else cliUrlCanon inurl = none) ∧
      url + leading (decodedText inurl start) = front.length ∧
      front.length + (escapeText kept).length ≤ inurl.length + 2 * inurl.countP needsEscape ∧
      kept.head? ≠ some 0x2e := by
  obtain ⟨before, after, url, finds, guarded, -, isLeading, inside⟩ :=
    canonHost_text short (hostStart_le isStart)
  obtain ⟨front, part, back, removes, isGuarded, sameFront, isPart, sameHead⟩ :=
    @canonDots_sublist _ _ _ url guarded (by omega)
  have shorter := isPart.length_le
  obtain ⟨kept, rest, isPrefix, -, isText, outcome⟩ := @canon_of_segments _ _ _ url inurl
    (by
      rw [canonSegments_eq short noNull, isStart]
      simp only [finds, removes, bind_some])
    isGuarded (by omega) (by omega)
  refine ⟨front, kept, rest, url, isText, outcome, by rw [isLeading, sameFront], ?_, ?_⟩
  · have fewer := (isPrefix.sublist.trans isPart).countP_le (p := needsEscape)
    have ofUrl := countP_hostText_le inurl start
    have keptLength := isPrefix.length_le
    rw [length_escapeText]
    omega
  · intro isDot
    obtain ⟨more, rfl⟩ := isPrefix
    exact head?_drop_leading _ (sameHead _ (by rw [head?_append, isDot]; rfl))

end LibClamav.Phish
