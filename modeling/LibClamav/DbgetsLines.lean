import LibClamav.DbgetsSource
import LibClamav.BytecodeLoadSource
import LibClamav.Separators
import Mathlib.Data.List.TakeWhile

namespace LibClamav.Dbgets

open List Separators

/-!
# The lines of a member and of a file

Whatever the buffer holds, it is searched as if it held the next bytes of the member, as
many as fit in.  So the buffered path loses a line that does not fit in with its newline,
and a last line without one.
-/

variable {bufpt : Nat} {pending kept text : List UInt8}

open Bytecode (chompRow)

section

/-- The buffer holds bytes from `bufpt` on, and others of the member are still unread. -/
structure Open (dbio : Dbio) (bufpt : Nat) (pending unread : List UInt8) : Prop where
  isOpen : dbio.bufpt = some bufpt
  isLength : dbio.buf.length = dbio.bufsize
  holds : ∃ stale, dbio.buf.drop bufpt = pending ++ 0 :: stale
  isFull : unread ≠ [] → bufpt + pending.length + 1 = dbio.bufsize
  isSize : dbio.size = unread.length
  follows : ∃ others, dbio.stream = unread ++ others

/-- The buffer keeps bytes at its start, and the next read fills it. -/
structure Ready (dbio : Dbio) (kept unread : List UInt8) : Prop where
  isClosed : dbio.bufpt = none
  isLength : dbio.buf.length = dbio.bufsize
  keeps : ∃ stale, dbio.buf = kept ++ stale
  isReadpt : dbio.readpt = kept.length
  isReadsize : dbio.readsize = min unread.length (dbio.bufsize - 1 - kept.length)
  isSize : dbio.size = unread.length
  follows : ∃ others, dbio.stream = unread ++ others

/-- A text is what `cli_dbgets` has not returned yet. -/
inductive Holding (dbio : Dbio) (text : List UInt8) : Prop where
  | ready (isReady : Ready dbio [] text)
  | opened (bufpt : Nat) (pending unread : List UInt8) (isOpen : Open dbio bufpt pending unread)
      (isText : text = pending ++ unread)

/-- An opened member has all its text before it. -/
theorem openMember_ready
    (buf text others : List UInt8) :
    Ready (openMember buf text.length (text ++ others)) [] text where
  isClosed := rfl
  isLength := rfl
  keeps := ⟨buf, rfl⟩
  isReadpt := rfl
  isReadsize := by
    change firstRead text.length buf.length = min text.length (buf.length - 1 - 0)
    unfold firstRead
    split
    · omega
    · omega
  isSize := rfl
  follows := ⟨others, rfl⟩

variable {dbio : Dbio} {unread : List UInt8}

theorem Open.length_le
    (isOpen : Open dbio bufpt pending unread) :
    bufpt + pending.length + 1 ≤ dbio.bufsize := by
  obtain ⟨stale, isBuf⟩ := isOpen.holds
  have isLength := congrArg length isBuf
  rw [length_drop, isOpen.isLength, length_append, length_cons] at isLength
  omega

/-- Nothing is read at the end or into a full buffer. -/
theorem refill_none
    (isReady : Ready dbio kept unread)
    (noRead : unread = [] ∨ dbio.bufsize ≤ kept.length + 1) :
    refill dbio = none := by
  rw [refill]
  by_cases isEnd : dbio.size = 0
  · rw [if_pos isEnd]
  have isEmpty : dbio.readsize = 0 := by
    rw [isReady.isReadsize]
    rw [isReady.isSize] at isEnd
    rcases noRead with rfl | noRoom
    · exact absurd rfl isEnd
    · omega
  simp [isEnd, isEmpty]

/-- A refill moves unread bytes to the buffer. -/
theorem refill_some
    (isReady : Ready dbio kept unread)
    (isUnread : unread ≠ [])
    (hasRoom : kept.length + 1 < dbio.bufsize) :
    ∃ filled, refill dbio = some filled ∧ filled.bufsize = dbio.bufsize ∧
      Open filled 0 ((kept ++ unread).take (dbio.bufsize - 1))
        ((kept ++ unread).drop (dbio.bufsize - 1)) := by
  rw [take_append, drop_append, take_of_length_le (by omega : kept.length ≤ _),
    drop_eq_nil_of_le (by omega : kept.length ≤ _), nil_append]
  obtain ⟨others, isStream⟩ := isReady.follows
  obtain ⟨stale, isBuf⟩ := isReady.keeps
  have isPositive := length_pos_iff.mpr isUnread
  have takes : dbio.stream.take dbio.readsize = unread.take (dbio.bufsize - 1 - kept.length) := by
    rw [isStream, isReady.isReadsize, take_append_of_le_length (min_le_left _ _),
      Nat.min_comm, ← take_eq_take_min]
  have isLength := isReady.isLength
  rw [isBuf, length_append] at isLength
  generalize isRead : unread.take (dbio.bufsize - 1 - kept.length) = bytes at takes
  have isBytes : bytes.length = min (dbio.bufsize - 1 - kept.length) unread.length := by
    rw [← isRead, length_take]
  have notEmpty : bytes ≠ [] := ne_nil_of_length_pos (by omega)
  have notEnd : dbio.size ≠ 0 := by
    rw [isReady.isSize]
    omega
  rw [refill, if_neg notEnd, takes]
  rw [if_neg notEmpty]
  refine ⟨_, rfl, rfl, rfl, ?_, ⟨stale.drop (bytes.length + 1), ?_⟩, ?_, ?_, ⟨others, ?_⟩⟩
  · dsimp only
    rw [writeAt, isBuf, isReady.isReadpt]
    simp only [length_append, length_take, length_drop, length_cons, length_nil]
    omega
  · dsimp only
    rw [writeAt, isBuf, isReady.isReadpt, drop_zero, take_left,
      length_append, length_singleton, drop_append,
      drop_eq_nil_of_le (by omega : kept.length ≤ kept.length + (bytes.length + 1))]
    simp
  · intro isLeft
    have isDropped := length_pos_iff.mpr isLeft
    rw [length_drop] at isDropped
    rw [length_append]
    dsimp only
    omega
  · dsimp only
    rw [isReady.isSize, length_drop]
    omega
  · dsimp only
    rw [isStream, isBytes, drop_append_of_le_length (min_le_right _ _), ← drop_eq_drop_min]

end

section

variable {room : Nat} {dbio : Dbio}

variable {line more : List UInt8}

theorem take_line
    {room : Nat}
    (fits : line.length + 1 < room) :
    (line ++ newline :: more).take (room - 1) =
      line ++ newline :: more.take (room - 2 - line.length) := by
  obtain ⟨left, isLeft⟩ := Nat.exists_eq_add_of_lt fits
  rw [take_append, take_of_length_le (by omega),
    show room - 1 - line.length = left + 1 by omega, take_succ_cons,
    show room - 2 - line.length = left by omega]

variable {unread : List UInt8}

/-- A line in the buffer is found. -/
theorem searchLine_found
    (isOpen : Open dbio bufpt (line ++ newline :: more) unread)
    (noZero : 0 ∉ line ++ newline :: more)
    (noNewline : newline ∉ line)
    (fits : line.length < room) :
    ∃ next, searchLine room dbio bufpt = .done (some line) next ∧
      next.bufsize = dbio.bufsize ∧ Open next (bufpt + line.length + 1) more unread := by
  obtain ⟨stale, isBuf⟩ := isOpen.holds
  have isLe := isOpen.length_le
  rw [length_append, length_cons] at isLe
  have hasNewline : newline ∈ line ++ newline :: more := mem_append_right _ mem_cons_self
  rw [searchLine]
  rw [isBuf, takeWhile_ne_append noZero, if_pos hasNewline, takeWhile_ne_append noNewline,
    if_neg (not_le.mpr fits), if_pos (by omega)]
  refine ⟨_, rfl, rfl, rfl, isOpen.isLength, ⟨stale, ?_⟩, ?_, isOpen.isSize, isOpen.follows⟩
  · dsimp only
    rw [add_assoc, ← drop_drop, isBuf, append_assoc, cons_append, ← drop_drop, drop_left]
    rfl
  intro isUnread
  have isFull := isOpen.isFull isUnread
  rw [length_append, length_cons] at isFull
  dsimp only
  omega

/-- A full buffer without a newline ends the search. -/
theorem searchLine_start
    (isOpen : Open dbio 0 pending unread)
    (noZero : 0 ∉ pending)
    (noNewline : newline ∉ pending) :
    searchLine room dbio 0 = .done none dbio := by
  obtain ⟨stale, isBuf⟩ := isOpen.holds
  rw [searchLine]
  rw [isBuf, takeWhile_ne_append noZero, if_neg noNewline, if_pos rfl]

/-- A part of a line is moved to the front. -/
theorem searchLine_moves
    {bufpt : Nat}
    {pending unread : List UInt8}
    (isOpen : Open dbio bufpt pending unread)
    (notStart : bufpt ≠ 0)
    (noZero : 0 ∉ pending)
    (noNewline : newline ∉ pending) :
    ∃ next, searchLine room dbio bufpt = .again next ∧ next.bufsize = dbio.bufsize ∧
      next.bufpt = none ∧ next.size = unread.length ∧
        (unread ≠ [] → Ready next pending unread) := by
  obtain ⟨stale, isBuf⟩ := isOpen.holds
  rw [searchLine]
  rw [isBuf, takeWhile_ne_append noZero, if_neg noNewline, if_neg notStart]
  refine ⟨_, rfl, rfl, rfl, isOpen.isSize, fun isUnread => ?_⟩
  have isFull := isOpen.isFull isUnread
  have isRemain : dbio.bufsize - 1 - bufpt = pending.length := by omega
  have isLength := isOpen.isLength
  rw [isRemain, take_left]
  refine ⟨rfl, ?_, ⟨dbio.buf.drop pending.length, rfl⟩, rfl, ?_, isOpen.isSize, isOpen.follows⟩
  · dsimp only
    rw [length_append, length_drop]
    omega
  dsimp only
  rw [isOpen.isSize]
  split
  · omega
  · omega

/-- After a refill the line is found. -/
theorem turn_ready_found
    (isReady : Ready dbio kept unread)
    (isUnread : unread ≠ [])
    (hasRoom : kept.length + 1 < dbio.bufsize)
    (isText : kept ++ unread = line ++ newline :: more)
    (noZero : 0 ∉ kept ++ unread)
    (noNewline : newline ∉ line)
    (fitsBuffer : line.length + 1 < dbio.bufsize)
    (fits : line.length < room) :
    ∃ next, turn room dbio = .done (some line) next ∧ next.bufsize = dbio.bufsize ∧
      Holding next more := by
  obtain ⟨filled, isFilled, isBufsize, isOpen⟩ := refill_some isReady isUnread hasRoom
  have isSeen : (kept ++ unread).take (dbio.bufsize - 1) =
      line ++ newline :: more.take (dbio.bufsize - 2 - line.length) := by
    rw [isText, take_line fitsBuffer]
  have isRest : more = more.take (dbio.bufsize - 2 - line.length) ++
      (kept ++ unread).drop (dbio.bufsize - 1) := by
    have isWhole := take_append_drop (dbio.bufsize - 1) (kept ++ unread)
    rw [isSeen, isText, append_assoc, append_cancel_left_eq, cons_append] at isWhole
    rw [isText]
    exact (cons.inj isWhole).2.symm
  have noZeroSeen : 0 ∉ (kept ++ unread).take (dbio.bufsize - 1) :=
    fun isSeen => noZero (mem_of_mem_take isSeen)
  rw [isSeen] at isOpen noZeroSeen
  obtain ⟨next, isDone, isNextBufsize, isNextOpen⟩ :=
    searchLine_found isOpen noZeroSeen noNewline fits
  refine ⟨next, ?_, isNextBufsize.trans isBufsize, .opened _ _ _ isNextOpen isRest⟩
  rw [turn, isReady.isClosed, isFilled]
  exact isDone

/-- Or there is none. -/
theorem turn_ready_none
    {kept unread : List UInt8}
    (isReady : Ready dbio kept unread)
    (noZero : 0 ∉ kept ++ unread)
    (noNewline : newline ∉ (kept ++ unread).take (dbio.bufsize - 1)) :
    ∃ next, turn room dbio = .done none next := by
  rw [turn, isReady.isClosed]
  by_cases noRead : unread = [] ∨ dbio.bufsize ≤ kept.length + 1
  · rw [refill_none isReady noRead]
    exact ⟨dbio, rfl⟩
  obtain ⟨isUnread, hasRoom⟩ := not_or.mp noRead
  obtain ⟨filled, isFilled, _, isOpen⟩ := refill_some isReady isUnread (not_le.mp hasRoom)
  rw [isFilled]
  exact ⟨filled, searchLine_start isOpen (fun isSeen => noZero (mem_of_mem_take isSeen)) noNewline⟩

/-- `cli_dbgets` returns a line that fits. -/
theorem cliDbgets_found
    (holding : Holding dbio text)
    (isText : text = line ++ newline :: more)
    (noZero : 0 ∉ text)
    (noNewline : newline ∉ line)
    (fitsBuffer : line.length + 1 < dbio.bufsize)
    (fits : line.length < room) :
    ∃ next, cliDbgets room dbio = (some line, next) ∧ next.bufsize = dbio.bufsize ∧
      Holding next more := by
  cases holding with
  | ready isReady =>
    have notEmpty : text ≠ [] := by simp [isText]
    obtain ⟨next, isDone, isBufsize, isHolding⟩ :=
      turn_ready_found isReady notEmpty (by rw [length_nil]; omega) isText noZero
        noNewline fitsBuffer fits
    rw [cliDbgets, isDone]
    exact ⟨next, rfl, isBufsize, isHolding⟩
  | opened bufpt pending unread isOpen isPending =>
    rw [isPending] at noZero isText
    have noZeroPending : 0 ∉ pending := fun isMem => noZero (mem_append_left _ isMem)
    by_cases hasNewline : newline ∈ pending
    · obtain ⟨line', more', rfl, noNewline'⟩ := eq_append_cons_of_mem hasNewline
      rw [append_assoc, cons_append] at isText
      obtain ⟨rfl, rfl⟩ := cut_unique noNewline' noNewline isText
      obtain ⟨next, isDone, isBufsize, isNextOpen⟩ :=
        searchLine_found isOpen noZeroPending noNewline fits
      rw [cliDbgets, turn, isOpen.isOpen]
      dsimp only
      rw [isDone]
      exact ⟨next, rfl, isBufsize, .opened _ _ _ isNextOpen rfl⟩
    · have isUnread : unread ≠ [] := by
        rintro rfl
        rw [append_nil] at isText
        exact hasNewline (isText ▸ mem_append_right _ mem_cons_self)
      have isFull := isOpen.isFull isUnread
      have isShorter : pending.length ≤ line.length := by
        by_contra isLonger
        have isPrefix := congrArg (take pending.length) isText
        rw [take_left, take_append, take_of_length_le (by omega)] at isPrefix
        obtain ⟨left, isLeft⟩ := Nat.exists_eq_add_of_lt (not_le.mp isLonger)
        rw [show pending.length - line.length = left + 1 by omega, take_succ_cons] at isPrefix
        exact hasNewline (isPrefix ▸ mem_append_right _ mem_cons_self)
      obtain ⟨moved, goesRound, isBufsize, _, _, isReady⟩ :=
        @searchLine_moves room dbio bufpt pending unread isOpen (by omega) noZeroPending hasNewline
      obtain ⟨next, isDone, isNextBufsize, isHolding⟩ :=
        turn_ready_found (isReady isUnread) isUnread (by omega) isText noZero noNewline
          (by omega) fits
      rw [cliDbgets, turn, isOpen.isOpen]
      dsimp only
      rw [goesRound]
      dsimp only
      rw [isDone]
      exact ⟨next, rfl, isNextBufsize.trans isBufsize, isHolding⟩

/-- It returns nothing if the buffer has no newline. -/
theorem cliDbgets_none
    (holding : Holding dbio text)
    (noZero : 0 ∉ text)
    (noNewline : newline ∉ text.take (dbio.bufsize - 1)) :
    (cliDbgets room dbio).1 = none := by
  cases holding with
  | ready isReady =>
    obtain ⟨next, isDone⟩ := @turn_ready_none room dbio [] text isReady noZero noNewline
    rw [cliDbgets, isDone]
  | opened bufpt pending unread isOpen isPending =>
    subst isPending
    have isLe := isOpen.length_le
    have noZeroPending : 0 ∉ pending := fun isMem => noZero (mem_append_left _ isMem)
    have noNewlinePending : newline ∉ pending := by
      intro isMem
      rw [take_append, take_of_length_le (by omega)] at noNewline
      exact noNewline (mem_append_left _ isMem)
    rw [cliDbgets, turn, isOpen.isOpen]
    dsimp only
    by_cases isStart : bufpt = 0
    · subst isStart
      rw [searchLine_start isOpen noZeroPending noNewlinePending]
    obtain ⟨moved, goesRound, isBufsize, isClosed, isSize, isReady⟩ :=
      @searchLine_moves room dbio bufpt pending unread isOpen isStart noZeroPending noNewlinePending
    rw [goesRound]
    dsimp only
    by_cases isRead : unread = []
    · rw [turn, isClosed]
      rw [refill, if_pos (by rw [isSize, isRead]; rfl)]
    · obtain ⟨next, isDone⟩ := @turn_ready_none room moved pending unread (isReady isRead)
        noZero (isBufsize ▸ noNewline)
      rw [isDone]

end

section

/-- The lines of a text without their newlines; the last one may have none. -/
def linesOf : List UInt8 → List Line
  | [] => []
  | c :: text =>
    if c = newline then
      [] :: linesOf text
    else
      match linesOf text with
      | [] => [[c]]
      | line :: lines => (c :: line) :: lines

/-- The last line has a newline. -/
def Terminated (text : List UInt8) : Prop := ∀ c ∈ text.getLast?, c = newline

variable {line : Line}

theorem linesOf_cons
    (more : List UInt8)
    (noNewline : newline ∉ line) :
    linesOf (line ++ newline :: more) = line :: linesOf more := by
  induction line with
  | nil => rw [nil_append, linesOf, if_pos rfl]
  | cons c line ih =>
    obtain ⟨notFirst, noNewline⟩ := not_or.mp fun isMem => noNewline (mem_cons.mpr isMem)
    rw [cons_append, linesOf, if_neg (Ne.symm notFirst), ih noNewline]

theorem terminated_cons_iff
    (line : Line)
    (more : List UInt8) :
    Terminated (line ++ newline :: more) ↔ Terminated more := by
  rw [Terminated, Terminated, getLast?_append, getLast?_cons]
  cases more.getLast? with
  | none | some c => simp

theorem not_terminated_last
    (notEmpty : line ≠ [])
    (noNewline : newline ∉ line) :
    ¬ Terminated line := by
  intro terminated
  have isLast := terminated _ (getLast?_eq_some_getLast notEmpty)
  exact noNewline (isLast ▸ getLast_mem notEmpty)

/-- Induction on the lines of a text. -/
theorem text_induction
    {motive : List UInt8 → Prop}
    (nil : motive [])
    (last : ∀ line, line ≠ [] → newline ∉ line → motive line)
    (cons : ∀ line more, newline ∉ line → motive more → motive (line ++ newline :: more))
    (text : List UInt8) :
    motive text := by
  induction isLength : text.length using Nat.strongRecOn generalizing text with
  | _ length ih =>
    by_cases hasNewline : newline ∈ text
    · obtain ⟨line, more, rfl, noNewline⟩ := eq_append_cons_of_mem hasNewline
      rw [length_append, length_cons] at isLength
      exact cons line more noNewline (ih more.length (by omega) more rfl)
    · by_cases isEmpty : text = []
      · exact isEmpty ▸ nil
      · exact last text isEmpty hasNewline

/-- The characters at the end that `cli_chomp` removes do not matter to it. -/
theorem chompRow_newline (noZero : 0 ∉ line) : chompRow (line ++ [newline]) = chompRow line := by
  have isText (bytes : List UInt8) (noZero : 0 ∉ bytes) : bytes.takeWhile (· ≠ 0) = bytes :=
    takeWhile_eq_self_iff.mpr fun c isMem => decide_eq_true fun isZero => noZero (isZero ▸ isMem)
  have noZeroNewline : 0 ∉ line ++ [newline] := by
    intro isMem
    rcases mem_append.mp isMem with isLine | isNewline
    · exact noZero isLine
    · exact absurd (mem_singleton.mp isNewline) (by decide)
  rw [chompRow, chompRow, isText _ noZero, isText _ noZeroNewline, reverse_append,
    reverse_singleton, singleton_append, dropWhile_cons_of_pos (by decide)]

end

variable {room : Nat}

variable {more : List UInt8}

/-- `fgets` returns a line that fits. -/
theorem fgets_line
    {line : List UInt8}
    (noNewline : newline ∉ line)
    (fits : line.length + 1 < room) :
    fgets room (line ++ newline :: more) = (some (line ++ [newline]), more) := by
  rw [fgets, if_neg (by simp)]
  dsimp only
  rw [take_line fits, if_pos (mem_append_right _ mem_cons_self), takeWhile_ne_append noNewline,
    length_append, length_singleton, ← drop_drop, drop_left]
  rfl

/-- It cuts one that does not. -/
theorem fgets_full
    {line : List UInt8}
    (noNewline : newline ∉ line)
    (isFull : line.length + 1 = room) :
    fgets room (line ++ newline :: more) = (some line, newline :: more) := by
  have isRead : (line ++ newline :: more).take (room - 1) = line := by
    rw [← isFull, Nat.add_sub_cancel, take_left]
  rw [fgets, if_neg (by simp)]
  dsimp only
  rw [isRead, if_neg noNewline, drop_left]

theorem fgets_isSome
    {file : List UInt8}
    (notEmpty : file ≠ []) :
    (fgets room file).1 ≠ none := by
  rw [fgets, if_neg notEmpty]
  exact Option.some_ne_none _

theorem count_fgets
    (file : List UInt8) :
    file.count newline ≤ (fgets room file).2.count newline + 1 := by
  rw [fgets]
  split_ifs with isEmpty
  · rw [isEmpty]
    exact Nat.zero_le _
  dsimp only
  by_cases hasNewline : newline ∈ file.take (room - 1)
  · obtain ⟨line, more, isTake, noNewline⟩ := eq_append_cons_of_mem hasNewline
    have isFile := take_append_drop (room - 1) file
    rw [isTake, append_assoc, cons_append] at isFile
    rw [if_pos hasNewline, isTake, takeWhile_ne_append noNewline, ← isFile, length_append,
      length_singleton, ← drop_drop, drop_left, count_append,
      count_eq_zero_of_not_mem noNewline, count_cons_self, zero_add]
    exact le_rfl
  rw [if_neg hasNewline]
  have isCount := @count_append _ _ newline (file.take (room - 1)) (file.drop (room - 1))
  rw [take_append_drop, count_eq_zero_of_not_mem hasNewline, zero_add] at isCount
  rw [length_take, ← drop_eq_drop_min, isCount]
  exact Nat.le_succ _

/-- `fgets` returns a row for each newline. -/
theorem nthLine_fgets_isSome
    (n : Nat) :
    ∀ (file : List UInt8), n < file.count newline →
      (nthLine (fgets room) n file).isSome := by
  have isSome (file : List UInt8) (hasNewline : 0 < file.count newline) :
      ∃ line, (fgets room file).1 = some line :=
    Option.ne_none_iff_exists'.mp (fgets_isSome (ne_nil_of_mem (count_pos_iff.mp hasNewline)))
  induction n with
  | zero =>
    intro file hasNewline
    obtain ⟨line, isLine⟩ := isSome file hasNewline
    rw [nthLine, isLine]
    rfl
  | succ n ih =>
    intro file hasNewlines
    obtain ⟨line, isLine⟩ := isSome file (by omega)
    have further := @count_fgets room file
    rw [nthLine, show fgets room file = (some line, (fgets room file).2) from
      Prod.ext isLine rfl]
    exact ih _ (by omega)

/-- A member or file whose lines are shorter than both buffers. -/
def Short (room bufsize : Nat) (text : List UInt8) : Prop :=
  ∀ line ∈ linesOf text, line.length < room ∧ line.length < bufsize

/-- Its last line has a newline, and all are shorter together with it. -/
def Fits (room bufsize : Nat) (text : List UInt8) : Prop :=
  Terminated text ∧ ∀ line ∈ linesOf text, line.length + 1 < room ∧ line.length + 1 < bufsize

instance (room bufsize : Nat) (text : List UInt8) : Decidable (Short room bufsize text) :=
  inferInstanceAs (Decidable (∀ line ∈ linesOf text, line.length < room ∧ line.length < bufsize))

instance (room bufsize : Nat) (text : List UInt8) : Decidable (Fits room bufsize text) :=
  inferInstanceAs (Decidable ((∀ c ∈ text.getLast?, c = newline) ∧
    ∀ line ∈ linesOf text, line.length + 1 < room ∧ line.length + 1 < bufsize))

theorem noNewline_take
    {line : List UInt8}
    {n : Nat}
    (noNewline : newline ∉ line)
    (isShort : n ≤ line.length) :
    newline ∉ (line ++ newline :: more).take n := by
  rw [take_append_of_le_length isShort]
  exact fun isMem => noNewline (mem_of_mem_take isMem)

/-- A text fits line by line. -/
theorem fits_cons_iff
    {bufsize : Nat}
    {line : Line}
    (more : List UInt8)
    (noNewline : newline ∉ line) :
    Fits room bufsize (line ++ newline :: more) ↔
      (line.length + 1 < room ∧ line.length + 1 < bufsize) ∧ Fits room bufsize more := by
  rw [Fits, Fits, terminated_cons_iff, linesOf_cons more noNewline, forall_mem_cons]
  exact and_left_comm

/-- `cli_dbgets` returns no row behind the last newline. -/
theorem nthLine_dbgets_count
    (text : List UInt8)
    {dbio : Dbio}
    (holding : Holding dbio text)
    (noZero : 0 ∉ text)
    (short : Short room dbio.bufsize text) :
    nthLine (cliDbgets room) (text.count newline) dbio = none := by
  induction text using text_induction generalizing dbio with
  | nil =>
    exact cliDbgets_none holding noZero (by simp)
  | last line notEmpty noNewline =>
    rw [count_eq_zero_of_not_mem noNewline]
    exact cliDbgets_none holding noZero fun isMem => noNewline (mem_of_mem_take isMem)
  | cons line more noNewline ih =>
    rw [Short, linesOf_cons more noNewline, forall_mem_cons] at short
    rw [count_append, count_cons_self, count_eq_zero_of_not_mem noNewline, zero_add, nthLine]
    by_cases fitsBuffer : line.length + 1 < dbio.bufsize
    · obtain ⟨next, isNext, isBufsize, isHolding⟩ :=
        cliDbgets_found holding rfl noZero noNewline fitsBuffer short.1.1
      rw [isNext]
      refine ih isHolding (fun isMem => noZero ?_) (isBufsize ▸ short.2)
      exact mem_append_right _ (mem_cons_of_mem _ isMem)
    · have isNone : (cliDbgets room dbio).1 = none :=
        cliDbgets_none holding noZero (noNewline_take noNewline (by omega))
      rw [show cliDbgets room dbio = (none, (cliDbgets room dbio).2) from Prod.ext isNone rfl]

theorem lines_differ
    {dbio : Dbio}
    (isNone : (cliDbgets room dbio).1 = none)
    (notEmpty : text ≠ []) :
    ¬ ∀ n, (nthLine (cliDbgets room) n dbio).map chompRow =
      (nthLine (fgets room) n text).map chompRow := by
  intro isSame
  have isFirst := isSame 0
  rw [nthLine, nthLine, isNone, Option.map_none, eq_comm, Option.map_eq_none_iff] at isFirst
  exact fgets_isSome notEmpty isFirst

/-- The two agree exactly if the text ends and its lines fit. -/
theorem holding_lines_iff
    (text : List UInt8)
    {dbio : Dbio}
    (holding : Holding dbio text)
    (noZero : 0 ∉ text)
    (short : Short room dbio.bufsize text) :
    ((∀ n, (nthLine (cliDbgets room) n dbio).map chompRow =
      (nthLine (fgets room) n text).map chompRow) ↔ Fits room dbio.bufsize text) := by
  induction text using text_induction generalizing dbio with
  | nil =>
    have isNone : (cliDbgets room dbio).1 = none := cliDbgets_none holding noZero (by simp)
    refine iff_of_true (fun n => ?_) ⟨by simp [Terminated], by simp [linesOf]⟩
    have isPair : cliDbgets room dbio = (none, (cliDbgets room dbio).2) := Prod.ext isNone rfl
    cases n with
    | zero => rw [nthLine, nthLine, isNone]; rfl
    | succ n => rw [nthLine, nthLine, isPair]; rfl
  | last line notEmpty noNewline =>
    refine iff_of_false (lines_differ ?_ notEmpty)
      fun fits => not_terminated_last notEmpty noNewline fits.1
    exact cliDbgets_none holding noZero fun isMem => noNewline (mem_of_mem_take isMem)
  | cons line more noNewline ih =>
    rw [Short, linesOf_cons more noNewline, forall_mem_cons] at short
    rw [fits_cons_iff more noNewline]
    have noZeroLine : 0 ∉ line := fun isMem => noZero (mem_append_left _ isMem)
    have noZeroMore : 0 ∉ more := fun isMem => noZero (mem_append_right _ (mem_cons_of_mem _ isMem))
    by_cases fitsBuffer : line.length + 1 < dbio.bufsize
    · obtain ⟨next, isNext, isBufsize, isHolding⟩ :=
        cliDbgets_found holding rfl noZero noNewline fitsBuffer short.1.1
      have shortMore : Short room next.bufsize more := isBufsize ▸ short.2
      have further := ih isHolding noZeroMore shortMore
      rw [isBufsize] at further
      by_cases fits : line.length + 1 < room
      · rw [← further, and_iff_right ⟨fits, fitsBuffer⟩]
        constructor
        · intro isSame n
          have isLater := isSame (n + 1)
          rw [nthLine, nthLine, isNext, fgets_line noNewline fits] at isLater
          exact isLater
        intro isSame n
        cases n with
        | zero =>
          rw [nthLine, nthLine, isNext, fgets_line noNewline fits, Option.map_some,
            Option.map_some, chompRow_newline noZeroLine]
        | succ n =>
          rw [nthLine, nthLine, isNext, fgets_line noNewline fits]
          exact isSame n
      · -- `fgets` returns the newline as a line of its own, so it returns one more
        refine iff_of_false (fun isSame => ?_) fun fitsAll => fits fitsAll.1.1
        have isFull : line.length + 1 = room := by omega
        have isLater := isSame (more.count newline + 1)
        rw [nthLine, nthLine, isNext, fgets_full noNewline isFull] at isLater
        dsimp only at isLater
        rw [nthLine_dbgets_count more isHolding noZeroMore shortMore, Option.map_none, eq_comm,
          Option.map_eq_none_iff] at isLater
        have isSome := @nthLine_fgets_isSome room (more.count newline) (newline :: more)
          (by rw [count_cons_self]; omega)
        rw [isLater] at isSome
        exact absurd isSome (by simp)
    · refine iff_of_false (lines_differ ?_ (by simp)) fun fitsAll => fitsBuffer fitsAll.1.2
      exact cliDbgets_none holding noZero (noNewline_take noNewline (by omega))

/--
The buffered path returns the lines that `fgets` returns for a file with the same bytes
exactly if the last one has a newline and all fit into both buffers with it.
-/
theorem dbgets_lines_iff
    (room : Nat)
    (buf text others : List UInt8)
    (noZero : 0 ∉ text)
    (short : Short room buf.length text) :
    (∀ n, (nthLine (cliDbgets room) n (openMember buf text.length (text ++ others))).map chompRow =
      (nthLine (fgets room) n text).map chompRow) ↔ Fits room buf.length text :=
  holding_lines_iff text (.ready (openMember_ready buf text others)) noZero short

/-- The line `c` behind `ab`, through a buffer of four bytes, which is refilled once. -/
theorem dbgets_lines_refilled : (nthLine (cliDbgets 8) 1
        (openMember [0, 0, 0, 0] 5 [0x61, 0x62, 0x0a, 0x63, 0x0a])).map chompRow =
      (nthLine (fgets 8) 1 [0x61, 0x62, 0x0a, 0x63, 0x0a]).map chompRow :=
  (dbgets_lines_iff 8 [0, 0, 0, 0] [0x61, 0x62, 0x0a, 0x63, 0x0a] [] (by decide)
    (by decide +kernel)).mpr (by decide +kernel) 1

/-- The line `b` at the end of a member is lost without a newline. -/
theorem dbgets_loses_last_line :
    nthLine (cliDbgets 8192) 1 (openMember (replicate 16 0) 3 [0x61, 0x0a, 0x62]) = none ∧
      nthLine (fgets 8192) 1 [0x61, 0x0a, 0x62] = some [0x62] := by
  decide +kernel

end LibClamav.Dbgets
