import LibClamav.UrlCanon
import Mathlib.Data.List.TakeWhile

namespace LibClamav.Phish

open CheckedBuffer List Option
open Option (bind_eq_bind)

/-!
# Texts of `cli_url_canon`

The loops of `cli_url_canon` as functions on the text between their cursors.  The
loop that escapes may stop early.
-/

variable {a b : UInt8} {rest text front host path : List UInt8} {canon : Canon} {url : Nat}

/-- What the loop makes of one character. -/
def escapeChar (c : UInt8) : List UInt8 :=
  if needsEscape c then
    [0x25, hexchar (c >>> 4), hexchar (c &&& 0xf)]
  else
    [c]

def escapeText (text : List UInt8) : List UInt8 := text.flatMap escapeChar

/-- An escaped byte takes three bytes. -/
theorem length_escapeText
    (text : List UInt8) :
    (escapeText text).length =
      text.length + 2 * text.countP needsEscape := by
  induction text with
  | nil => rfl
  | cons c rest ih =>
    rw [escapeText] at ih
    rw [escapeText, flatMap_cons, length_append, ih, length_cons, countP_cons, escapeChar]
    split
    all_goals
      simp only [length_cons, length_nil]
      omega

theorem escapeText_cons
    (c : UInt8)
    (rest : List UInt8) :
    escapeText (c :: rest) = escapeChar c ++ escapeText rest :=
  flatMap_cons

theorem escape_in_place
    {α : Type}
    (front rest back : List UInt8)
    (c : UInt8)
    (next : List UInt8 → Option α)
    (room : 2 ≤ back.length) :
    (do
        let buf ← move (front ++ c :: rest ++ back) (front.length + 3)
          (front.length + 1) rest.length
        let buf ← write buf front.length 0x25
        let buf ← write buf (front.length + 1) (hexchar (c >>> 4))
        let buf ← write buf (front.length + 2) (hexchar (c &&& 0xf))
        next buf) =
      next (front ++ [0x25, hexchar (c >>> 4), hexchar (c &&& 0xf)] ++ rest ++ back.drop 2) := by
  obtain ⟨x, y, z, isHead⟩ : ∃ x y z, (c :: rest ++ back).take 3 = [x, y, z] := by
    have isLength : ((c :: rest ++ back).take 3).length = 3 := by
      simp only [length_take, length_append, length_cons]
      omega
    exact length_eq_three.mp isLength
  have moves : move (front ++ c :: rest ++ back) (front.length + 3) (front.length + 1) rest.length =
        some (front ++ x :: y :: z :: (rest ++ back.drop 2)) := by
    unfold move
    rw [if_pos (Or.inr ⟨by simp; omega, by simp; omega⟩), append_assoc,
      take_length_add_append, isHead, drop_length_add_append,
      Nat.add_assoc, drop_length_add_append]
    simp [drop_append, Nat.add_comm 3]
  have second : write (front ++ 0x25 :: y :: z :: (rest ++ back.drop 2))
      (front.length + 1) (hexchar (c >>> 4)) = some (front ++ 0x25 :: hexchar (c >>> 4) :: z ::
          (rest ++ back.drop 2)) := by
    simpa using write_append (front ++ [0x25]) (z :: (rest ++ back.drop 2)) y (hexchar (c >>> 4))
  have third : write (front ++ 0x25 :: hexchar (c >>> 4) :: z :: (rest ++ back.drop 2))
      (front.length + 2) (hexchar (c &&& 0xf)) =
        some (front ++ 0x25 :: hexchar (c >>> 4) :: hexchar (c &&& 0xf) ::
          (rest ++ back.drop 2)) := by
    simpa using write_append (front ++ [0x25, hexchar (c >>> 4)])
      (rest ++ back.drop 2) z (hexchar (c &&& 0xf))
  rw [moves]
  simp only [write_append, second, third, bind_eq_bind, bind_some]
  simp

/-- One round of the loop that escapes. -/
theorem escapeLoop_round
    (fuel : Nat)
    (front rest back : List UInt8)
    (c : UInt8)
    (urlRoom : front.length + 2 < url + urlMaxLen)
    (room : front.length + (rest.length + 1) < 1024)
    (isLength : (front ++ c :: rest ++ back).length = 1027) :
    escapeLoop (fuel + 1) (front ++ c :: rest ++ back) url front.length
        (front.length + (rest.length + 1)) =
      escapeLoop fuel (front ++ escapeChar c ++ rest ++ back.drop ((escapeChar c).length - 1)) url
        (front ++ escapeChar c).length ((front ++ escapeChar c).length + rest.length) := by
  have isFirst : read (front ++ c :: rest ++ back) front.length = some c := read_first
  simp only [length_append, length_cons] at isLength
  rw [escapeLoop, if_pos ⟨by omega, urlRoom, room⟩]
  simp only [isFirst, bind_eq_bind, bind_some]
  by_cases isEscaped : needsEscape c = true
  · have escapes := escape_in_place front rest back c
      (fun buf => escapeLoop fuel buf url (front.length + 3)
        (front.length + (rest.length + 1) + 2)) (by omega)
    rw [if_pos isEscaped,
      show front.length + (rest.length + 1) - front.length - 1 = rest.length by omega]
    refine escapes.trans ?_
    simp only [escapeChar, if_pos isEscaped, length_append, length_cons, length_nil]
    congr 1
    omega
  · simp [escapeChar, isEscaped, Nat.add_assoc, Nat.add_comm 1]

/--
The loop escapes a front part of the text, and all of it if the result stays
below the limit.
-/
theorem escapeLoop_text
    (text : List UInt8)
    (fuel : Nat)
    (front back : List UInt8)
    (enough : text.length < fuel)
    (isLength : (front ++ text ++ back).length = 1027)
    (inside : front.length + text.length ≤ 1025) :
    ∃ kept later, kept <+: text ∧ escapeLoop fuel (front ++ text ++ back) url front.length
          (front.length + text.length) =
        some (front ++ escapeText kept ++ later, front.length + (escapeText kept).length) ∧
      (front ++ escapeText kept ++ later).length = 1027 ∧ later.getLast? = back.getLast? ∧
      front.length + (escapeText kept).length ≤ 1025 ∧
      (1 ≤ url → front.length + (escapeText text).length < 1024 → kept = text) := by
  induction text generalizing fuel front back with
  | nil =>
    obtain ⟨fuel, rfl⟩ := Nat.exists_eq_add_one.mpr (by omega : 0 < fuel)
    refine ⟨[], back, prefix_refl _, ?_, isLength, rfl, inside, fun _ _ => rfl⟩
    rw [escapeLoop, if_neg (by simp)]
    rfl
  | cons c rest ih =>
    obtain ⟨fuel, rfl⟩ := Nat.exists_eq_add_one.mpr (by omega : 0 < fuel)
    have lengths := isLength
    simp only [length_append, length_cons] at lengths inside enough
    by_cases room : front.length + 2 < url + urlMaxLen ∧ front.length + (rest.length + 1) < 1024
    swap
    · refine ⟨[], c :: rest ++ back, nil_prefix, ?_, ?_, ?_, by simp [escapeText]; omega, ?_⟩
      · rw [escapeLoop, if_neg fun isRound => room isRound.2]
        simp [escapeText]
      · simpa [escapeText] using isLength
      · rw [getLast?_append_of_ne_nil _ (ne_nil_of_length_pos (by omega))]
      intro isUrl fits
      have := length_escapeText (c :: rest)
      simp only [length_cons, urlMaxLen] at room this
      omega
    have charLength : (escapeChar c).length = 1 ∨ (escapeChar c).length = 3 := by
      unfold escapeChar
      split <;> simp
    obtain ⟨kept, later, isPrefix, loops, laterLength, isLast, isTo, whole⟩ :=
      ih fuel (front ++ escapeChar c) (back.drop ((escapeChar c).length - 1)) (by omega)
        (by simp only [length_append, length_drop]; omega) (by rw [length_append]; omega)
    rw [getLast?_drop, if_neg (by omega)] at isLast
    have isText : front ++ escapeChar c ++ escapeText kept = front ++ escapeText (c :: kept) := by
      rw [escapeText_cons, append_assoc]
    have isPlace : (front ++ escapeChar c).length + (escapeText kept).length =
        front.length + (escapeText (c :: kept)).length := by
      rw [← length_append, isText, length_append]
    rw [isPlace] at loops isTo
    rw [isText] at loops laterLength
    refine ⟨c :: kept, later, cons_prefix_cons.mpr ⟨rfl, isPrefix⟩, ?_, laterLength, isLast,
      isTo, ?_⟩
    · rw [length_cons, escapeLoop_round fuel front rest back c room.1 room.2 isLength]
      exact loops
    · intro isUrl fits
      rw [escapeText_cons, length_append] at fits
      rw [whole isUrl (by rw [length_append]; omega)]

theorem hexchar_bounds :
    ∀ c : UInt8, (0x30 : UInt8) ≤ hexchar (c >>> 4) ∧ hexchar (c >>> 4) ≤ 0x46 ∧
        (0x30 : UInt8) ≤ hexchar (c &&& 0xf) ∧ hexchar (c &&& 0xf) ≤ 0x46 := by
  decide +kernel

/-- What an escaped text consists of. -/
theorem mem_escapeText
    (mem : b ∈ escapeText text) :
    (b ∈ text ∧ needsEscape b = false) ∨ b = 0x25 ∨ (0x30 ≤ b ∧ b ≤ 0x46) := by
  obtain ⟨c, isMember, isPart⟩ := mem_flatMap.mp mem
  have bounds := hexchar_bounds c
  unfold escapeChar at isPart
  split at isPart
  · simp only [mem_cons, not_mem_nil, or_false] at isPart
    rcases isPart with rfl | rfl | rfl
    · exact .inr (.inl rfl)
    · exact .inr (.inr ⟨bounds.1, bounds.2.1⟩)
    · exact .inr (.inr ⟨bounds.2.2.1, bounds.2.2.2⟩)
  · rename_i notEscaped
    cases mem_singleton.mp isPart
    exact .inl ⟨isMember, by simpa using notEscaped⟩

theorem not_mem_escapeText
    (escaped : needsEscape b = true)
    (notPercent : b ≠ 0x25)
    (below : b < 0x30 ∨ 0x46 < b)
    (text : List UInt8) :
    b ∉ escapeText text := by
  intro mem
  rcases mem_escapeText mem with ⟨-, notEscaped⟩ | isPercent | isDigit
  · rw [escaped] at notEscaped
    cases notEscaped
  · exact notPercent isPercent
  · rcases below with isBelow | isAbove
    · exact absurd isDigit.1 (UInt8.not_le.mpr isBelow)
    · exact absurd isDigit.2 (UInt8.not_le.mpr isAbove)

/-- The host ends at a colon, a slash or a question mark. -/
def endsHost (c : UInt8) : Bool := [0x3a, 0x2f, 0x3f].contains c

def hostOf (text : List UInt8) : List UInt8 := text.takeWhile fun c => !endsHost c

def pathOf (text : List UInt8) : List UInt8 := (text.dropWhile fun c => !endsHost c).drop 1

/-- A text in lower case. -/
theorem strMakeLowercase_text
    (text : List UInt8)
    (front back : List UInt8) :
    strMakeLowercase text.length (front ++ text ++ back) front.length =
      some (front ++ text.map tolower ++ back) := by
  induction text generalizing front back with
  | nil =>
    rw [map_nil]
    rfl
  | cons c rest ih =>
    have isFirst : read (front ++ c :: (rest ++ back)) front.length = some c :=
      @read_append_right _ front _ 0
    have lowers := ih (front ++ [tolower c]) back
    simp only [append_assoc, cons_append, nil_append,
      length_append, length_cons, length_nil] at lowers ⊢
    simp only [strMakeLowercase, isFirst, write_append, bind_eq_bind, bind_some, map_cons]
    rw [← Nat.zero_add 1, lowers, cons_append]

theorem takeWhile_or_of_not_mem
    {stop : UInt8 → Bool}
    {last : UInt8}
    (notThere : last ∉ text) :
    text.takeWhile (fun c => !(stop c || c == last)) = text.takeWhile (fun c => !stop c) := by
  induction text with
  | nil => rfl
  | cons c rest ih =>
    have differs : c ≠ last := fun same => notThere (by simp [same])
    have restThere := ih (fun mem => notThere (mem_cons_of_mem _ mem))
    rw [takeWhile_cons, takeWhile_cons, restThere, beq_false_of_ne differs, Bool.or_false]

/-- The host ends at a colon, a slash or a question mark. -/
theorem strcspn_text
    (front text back : List UInt8)
    (noNull : (0 : UInt8) ∉ text) :
    strcspn (front ++ text ++ 0 :: back) front.length [0x3a, 0x2f, 0x3f] =
      some (hostOf text).length := by
  rw [strcspn, find_text front text back (by simp), takeWhile_or_of_not_mem noNull]
  simp [hostOf, endsHost]

/-- A null byte is put between host and path. -/
theorem insert_terminator
    {α : Type}
    {buf : List UInt8}
    {place n : Nat}
    (next : List UInt8 → Option α)
    (room : place + 2 + n ≤ buf.length) :
    (do
      let buf ← move buf (place + 2) (place + 1) n
      let buf ← write buf place 0x2f
      let buf ← write buf (place + 1) 0
      next buf) =
    next (buf.take place ++ 0x2f :: 0 ::
      ((buf.drop (place + 1)).take n ++ buf.drop (place + 2 + n))) := by
  obtain ⟨x, y, isPair⟩ : ∃ x y, (buf.drop place).take 2 = [x, y] := by
    have isLength : ((buf.drop place).take 2).length = 2 := by
      rw [length_take, length_drop]
      omega
    exact length_eq_two.mp isLength
  have isPlace : (buf.take place).length = place := by
    rw [length_take]
    omega
  have moves : move buf (place + 2) (place + 1) n = some (buf.take place ++ x :: y ::
        ((buf.drop (place + 1)).take n ++ buf.drop (place + 2 + n))) := by
    unfold move
    rw [if_pos (.inr ⟨room, by omega⟩), take_add, isPair]
    simp
  have first := write_append (buf.take place)
    (y :: ((buf.drop (place + 1)).take n ++ buf.drop (place + 2 + n))) x 0x2f
  have second := write_append (buf.take place ++ [0x2f])
    ((buf.drop (place + 1)).take n ++ buf.drop (place + 2 + n)) y 0
  rw [length_append, length_singleton] at second
  rw [isPlace] at first second
  simp only [append_assoc, cons_append, nil_append] at second
  simp only [moves, first, second, bind_eq_bind, bind_some]

/-- A text without an anchor is not cut. -/
theorem cutAnchor_text
    (front text back : List UInt8)
    (pathLen : Nat)
    (noNull : (0 : UInt8) ∉ text)
    (noAnchor : (0x23 : UInt8) ∉ text) :
    cutAnchor (front ++ text ++ 0 :: back) front.length pathLen =
      some (front ++ text ++ 0 :: back, pathLen) := by
  have isEnd : text.takeWhile (fun c => !(c == 0x23 || c == 0)) = text := by
    rw [takeWhile_or_of_not_mem noNull, takeWhile_eq_self_iff]
    intro c mem
    have differs : c ≠ 0x23 := fun same => noAnchor (same ▸ mem)
    simp [differs]
  have isNull : read (front ++ text ++ 0 :: back) (front.length + text.length) = some 0 := by
    rw [← length_append]
    exact @read_append_right _ (front ++ text) _ 0
  have finds : strchr (front ++ text ++ 0 :: back) front.length 0x23 = some none := by
    rw [strchr, find_text front text back (by simp), isEnd, bind_eq_bind, bind_some, isNull]
    rfl
  rw [cutAnchor, finds]
  rfl

/-- How the buffer holds the host and the path that are returned. -/
structure Canon.Shape (canon : Canon) (front host path : List UInt8) : Prop where
  hostBegin : canon.host = front.length
  hostLen : canon.hostLen = host.length
  pathLen : canon.pathLen = path.length
  buffer : ∃ back, canon.buf = front ++ host ++ 0x2f :: 0 :: back ∧
    (path ≠ [] → canon.path = some (front.length + host.length + 2) ∧
      ∃ more, back = path ++ 0 :: more)

theorem Canon.Shape.hostText (shape : canon.Shape front host path) : canon.hostText = host := by
  obtain ⟨back, isBuffer, -⟩ := shape.buffer
  rw [Canon.hostText, shape.hostBegin, shape.hostLen, isBuffer, append_assoc, drop_left, take_left]

theorem Canon.Shape.pathText (shape : canon.Shape front host path) : canon.pathText = path := by
  obtain ⟨back, isBuffer, isPath⟩ := shape.buffer
  rw [Canon.pathText, shape.pathLen]
  by_cases isEmpty : path = []
  · subst isEmpty
    cases canon.path <;> rfl
  obtain ⟨isPlace, more, rfl⟩ := isPath isEmpty
  rw [isPlace, isBuffer]
  have samePlace : front.length + host.length + 2 = (front ++ host ++ [0x2f, 0]).length := by
    simp [Nat.add_assoc]
  have sameBuffer : front ++ host ++ 0x2f :: 0 :: (path ++ 0 :: more) =
      front ++ host ++ [0x2f, 0] ++ (path ++ 0 :: more) := by
    simp
  simp only
  rw [samePlace, sameBuffer, drop_left, take_left]

/-- Host and path are set apart if there is room. -/
theorem splitPath_shape
    (front text back : List UInt8)
    (isLength : (front ++ text ++ 0 :: back).length = 1027)
    (isUrl : url ≤ front.length)
    (room : front.length + text.length + (front.length - url) ≤ 1025)
    (noNull : (0 : UInt8) ∉ text)
    (noAnchor : (0x23 : UInt8) ∉ text) :
    ∃ canon, splitPath ⟨front ++ text ++ 0 :: back, url, front.length,
          front.length + text.length⟩ = some canon ∧
        canon.Shape front ((hostOf text).map tolower) (pathOf text) := by
  have isText : hostOf text ++ text.dropWhile (fun c => !endsHost c) = text :=
    takeWhile_append_dropWhile
  have spans := strcspn_text front text back noNull
  have isPath : pathOf text = (text.dropWhile (fun c => !endsHost c)).drop 1 := rfl
  generalize hostOf text = host at *
  generalize text.dropWhile (fun c => !endsHost c) = rest at *
  have lengths := congrArg length isText
  rw [length_append] at lengths
  simp only [length_append, length_cons] at isLength
  have inserts := fun next => @insert_terminator Canon
    (front ++ text ++ 0 :: back) (front.length + host.length)
    (front.length + text.length - url - host.length) next
    (by simp only [length_append, length_cons]; omega)
  have isFront : (front ++ text ++ 0 :: back).take
      (front.length + host.length) = front ++ host := by
    rw [← isText, ← length_append, append_assoc, append_assoc host, ← append_assoc front, take_left]
  have isShort : host.length ≤ front.length + text.length - url := by omega
  have isEnd : url + (front.length + text.length - url) = front.length + text.length := by omega
  unfold splitPath
  simp only [spans, bind_eq_bind, bind_some, if_pos isShort, isEnd] at inserts ⊢
  rw [inserts, isFront]
  rcases rest with _ | ⟨c, path⟩
  · -- no path behind the host
    rw [append_nil] at isText
    subst isText
    rw [if_neg (by omega)]
    generalize take _ (drop _ (front ++ host ++ 0 :: back)) ++
      drop _ (front ++ host ++ 0 :: back) = tail
    have lowers := strMakeLowercase_text host front (0x2f :: 0 :: tail)
    simp only [lowers, bind_some, Option.pure_def]
    refine ⟨_, rfl, rfl, (length_map _).symm, congrArg length isPath.symm,
      tail, rfl, fun nonempty => (nonempty isPath).elim⟩
  · subst isText
    have isRest : (front ++ (host ++ c :: path) ++ 0 :: back).drop
        (front.length + host.length + 1) = path ++ 0 :: back := by
      have isSplit : front ++ (host ++ c :: path) ++ 0 :: back =
          front ++ host ++ [c] ++ (path ++ 0 :: back) := by simp
      have isPlace : front.length + host.length + 1 = (front ++ host ++ [c]).length := by
        simp [Nat.add_assoc]
      rw [isSplit, isPlace, drop_left]
    obtain ⟨tail, isTail⟩ : ∃ tail, (path ++ 0 :: back).take
        (front.length + (host ++ c :: path).length - url - host.length) = path ++ 0 :: tail := by
      refine ⟨back.take (front.length - url), ?_⟩
      rw [show front.length + (host ++ c :: path).length - url - host.length =
        path.length + (front.length - url + 1) by
          simp only [length_append, length_cons]
          omega, take_length_add_append, take_succ_cons]
    rw [isRest, isTail]
    generalize drop _ (front ++ (host ++ c :: path) ++ 0 :: back) = more
    have isBuffer : front ++ host ++ 0x2f :: 0 :: (path ++ 0 :: tail ++ more) =
        front ++ host ++ [0x2f, 0] ++ path ++ 0 :: (tail ++ more) := by simp
    have isPlace : front.length + host.length + 2 = (front ++ host ++ [0x2f, 0]).length := by
      simp [Nat.add_assoc]
    have pathNull : (0 : UInt8) ∉ path := fun mem => noNull (by simp [mem])
    have pathAnchor : (0x23 : UInt8) ∉ path := fun mem => noAnchor (by simp [mem])
    have lowers : strMakeLowercase host.length
        (front ++ host ++ [0x2f, 0] ++ path ++ 0 :: (tail ++ more))
        front.length = some (front ++ host.map tolower ++
            ([0x2f, 0] ++ path ++ 0 :: (tail ++ more))) := by
      rw [← strMakeLowercase_text]
      simp
    rw [isBuffer]
    by_cases isEmpty : path = []
    · subst isEmpty
      rw [if_neg (by simp only [length_append, length_cons, length_nil]; omega)]
      simp only [lowers, bind_some, Option.pure_def]
      refine ⟨_, rfl, rfl, (length_map _).symm, congrArg length isPath.symm,
        0 :: (tail ++ more), by simp, fun nonempty => (nonempty isPath).elim⟩
    have isSome := length_pos_of_ne_nil isEmpty
    have isPathLen : front.length + (host ++ c :: path).length -
        (front.length + host.length + 2) + 1 = path.length := by
      simp only [length_append, length_cons]
      omega
    have cuts := cutAnchor_text (front ++ host ++ [0x2f, 0]) path
      (tail ++ more) path.length pathNull pathAnchor
    rw [if_pos (by simp only [length_append, length_cons]; omega), isPathLen, isPlace, cuts]
    simp only [bind_some, lowers, Option.pure_def]
    refine ⟨_, rfl, rfl, (length_map _).symm, congrArg length isPath.symm,
      path ++ 0 :: (tail ++ more), by simp, fun _ => ⟨by simp [Nat.add_assoc], ?_⟩⟩
    rw [isPath]
    exact ⟨_, rfl⟩

/-- Otherwise there is no canonical URL. -/
theorem splitPath_eq_none
    (front text back : List UInt8)
    (isLength : (front ++ text ++ 0 :: back).length = 1027)
    (isUrl : url ≤ front.length)
    (inside : front.length + text.length ≤ 1025)
    (noRoom : ¬ front.length + text.length + (front.length - url) ≤ 1025)
    (noNull : (0 : UInt8) ∉ text) :
    splitPath ⟨front ++ text ++ 0 :: back, url, front.length, front.length + text.length⟩ =
      none := by
  have isHost : (hostOf text).length ≤ text.length := (takeWhile_sublist _).length_le
  have fails : move (front ++ text ++ 0 :: back) (front.length + (hostOf text).length + 2)
      (front.length + (hostOf text).length + 1)
      (front.length + text.length - url - (hostOf text).length) = none :=
    move_eq_none_iff.mpr ⟨by omega, .inl (by rw [isLength]; omega)⟩
  unfold splitPath
  rw [strcspn_text front text back noNull]
  simp only [bind_eq_bind, bind_some]
  rw [if_pos (by omega), fails]
  rfl

end LibClamav.Phish
