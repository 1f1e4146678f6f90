import Mathlib.Algebra.Order.Ring.Int

namespace LibClamav.Cpio

open List

/-!
# The header loops of cpio archives

`cli_scancpio_old`, `cli_scancpio_odc` and `cli_scancpio_newc` differ in the header and the
padding.  The seek behind a file adds its size to a position; an `off_t` of 32 bits wraps
around there.
-/

/-- The three functions, the last one with its argument `crc`. -/
inductive Format where
  | old
  | odc
  | newc (crc : Bool)
  deriving Repr, DecidableEq

/-- The size of the header -/
def Format.headerSize : Format → Nat
  | .old => 26
  | .odc => 76
  | .newc _ => 110

/-- The padding behind a name -/
def Format.namePad : Format → Nat → Nat
  | .old, size => size % 2
  | .odc, _ => 0
  | .newc _, size => (4 - (110 + size) % 4) % 4

/-- The padding behind a file -/
def Format.filePad : Format → Nat → Nat
  | .old, size => size % 2
  | .odc, _ => 0
  | .newc _, size => if size % 4 = 0 then 0 else 4 - size % 4

/--
The conversions by `sscanf`, and the bytes that `cli_dumpscan` reads at a position for a size;
without them the function returns there.
-/
structure Env where
  sscanf : Format → List UInt8 → Option Nat
  dumpscan : Nat → Nat → Option Nat

/-- `EC16` of a field -/
def word (header : List UInt8) (conv : Bool) (place : Nat) : Nat :=
  let first := (header.getD place 0).toNat
  let second := (header.getD (place + 1) 0).toNat
  if conv then first * 2 ^ 8 + second else second * 2 ^ 8 + first

/-- The sizes of the name and of the file in a header; `none` if the function returns. -/
def Env.sizes
    (env : Env)
    (format : Format)
    (header : List UInt8) :
    Option (Nat × Nat) :=
  let field start size := env.sscanf format ((header.drop start).take size)
  match format with
  | .old =>
    let magic := word header false 0
    let conv := magic == 0o143561
    if magic = 0o070707 ∨ conv then
      some (word header conv 20, word header conv 22 * 2 ^ 16 + word header conv 24)
    else
      none
  | .odc =>
    if header.take 6 ≠ [0x30, 0x37, 0x30, 0x37, 0x30, 0x37] then none
    else (field 59 6).bind fun namesize => (field 65 11).map fun filesize => (namesize, filesize)
  | .newc crc =>
    if header.take 6 ≠ [0x30, 0x37, 0x30, 0x37, 0x30, if crc then 0x32 else 0x31] then none
    else (field 94 8).bind fun namesize => (field 54 8).map fun filesize => (namesize, filesize)

/-- `lseek` from `base`; an invalid place leaves the position. -/
def lseek (w position base offset : Nat) : Nat :=
  let place := base + Int.bmod offset (2 ^ w)
  if 0 ≤ place ∧ place < 2 ^ (w - 1) then place.toNat else position

/-- What is read of a name -/
def nameRead (hdrNamesize : Nat) : Nat := min 513 hdrNamesize

/-- The seek over the rest of a name and its padding, as a `uint32_t` -/
def Format.nameSkip (format : Format) (hdrNamesize : Nat) : Nat :=
  (hdrNamesize + format.namePad hdrNamesize + 2 ^ 32 - nameRead hdrNamesize) % 2 ^ 32

/-- The size of a file with its padding, as a `uint32_t` -/
def Format.fileSkip (format : Format) (filesize : Nat) : Nat :=
  (filesize + format.filePad filesize) % 2 ^ 32

section

variable (w : Nat) (env : Env) (format : Format) (file : List UInt8)

/--
The sizes of the name and of the file in the header at a position; `none` if the
function returns before it has read the name.
-/
def readHeader (start : Nat) : Option (Nat × Nat) :=
  let header := (file.drop start).take format.headerSize
  if header.length ≠ format.headerSize then none
  else
    match env.sizes format header with
    | none => none
    | some (namesize, filesize) =>
      let hdrNamesize := namesize % 2 ^ 32
      if file.length < start + format.headerSize + nameRead hdrNamesize then none
      else some (hdrNamesize, filesize % 2 ^ 32)

/-- The position behind the name -/
def nameEnd (start hdrNamesize : Nat) : Nat :=
  let position := start + format.headerSize + nameRead hdrNamesize
  if hdrNamesize = 0 then position
  else lseek w position position (format.nameSkip hdrNamesize)

/-- One round of the loop: where the next header starts, if the function does not return. -/
def nextStart (start : Nat) : Option Nat :=
  (readHeader env format file start).bind fun (hdrNamesize, filesize) =>
    let pos := nameEnd w format start hdrNamesize
    if filesize = 0 then some pos
    else
      (env.dumpscan pos filesize).map fun dumped =>
        lseek w (pos + dumped) 0 (pos + format.fileSkip filesize)

/-- Where the header of a round starts. -/
def startAt : Nat → Option Nat
  | 0 => some 0
  | round + 1 => (startAt round).bind (nextStart w env format file)

/-- Each round starts behind the one before, and the function returns. -/
def Advances : Prop :=
  (∀ round start next, startAt w env format file round = some start →
    startAt w env format file (round + 1) = some next → start < next) ∧
  ∃ round, startAt w env format file round = none

/-- The header of some round, with its sizes -/
def Reads (start hdrNamesize filesize : Nat) : Prop :=
  (∃ round, startAt w env format file round = some start) ∧
    readHeader env format file start = some (hdrNamesize, filesize)

/-- The seek over the name passes no multiple of `2 ^ w`. -/
def NameFits (start hdrNamesize : Nat) : Prop :=
  start + format.headerSize + nameRead hdrNamesize + format.nameSkip hdrNamesize < 2 ^ w

/--
The file behind a header ends below `2 ^ w`, or so far above that its end comes
behind the header again.  A function that returns at the file seeks no more.
-/
def FileFits (start hdrNamesize filesize : Nat) : Prop :=
  let pos := nameEnd w format start hdrNamesize
  filesize ≠ 0 → env.dumpscan pos filesize ≠ none →
    pos + format.fileSkip filesize < 2 ^ w ∨ 2 ^ w + start < pos + format.fileSkip filesize

end

variable {w : Nat} {env : Env} {format : Format} {file : List UInt8}

/-- A seek that passes no multiple of `2 ^ w` goes forward or fails. -/
theorem lseek_eq
    {position base offset : Nat}
    (positive : 0 < w)
    (below : base + offset < 2 ^ w) :
    lseek w position base offset =
      if base + offset < 2 ^ (w - 1) then base + offset else position := by
  have isHalf : (2 : Int) ^ (w - 1) = (2 ^ (w - 1) : Nat) := by push_cast; rfl
  unfold lseek
  rw [← Nat.two_pow_pred_mul_two positive] at below ⊢
  simp only [isHalf]
  generalize 2 ^ (w - 1) = half at below ⊢
  have isSmall : (offset : Int) % (half * 2 : Nat) = offset :=
    Int.emod_eq_of_lt (Int.natCast_nonneg _) (by omega)
  simp only [Int.bmod_def, isSmall]
  split_ifs <;> omega

/-- A seek from the start of the file that passes `2 ^ w` goes to what is left. -/
theorem lseek_zero_wraps
    {position offset : Nat}
    (positive : 0 < w)
    (above : 2 ^ w ≤ offset)
    (below : offset < 2 ^ w + 2 ^ (w - 1)) :
    lseek w position 0 offset = offset - 2 ^ w := by
  have isHalf : (2 : Int) ^ (w - 1) = (2 ^ (w - 1) : Nat) := by push_cast; rfl
  unfold lseek
  rw [← Nat.two_pow_pred_mul_two positive] at above below ⊢
  simp only [isHalf]
  generalize 2 ^ (w - 1) = half at above below ⊢
  have isLeft : (offset : Int) % (half * 2 : Nat) = offset - half * 2 := by
    rw [← Int.sub_emod_right]
    push_cast
    exact Int.emod_eq_of_lt (by omega) (by omega)
  simp only [Int.bmod_def, isLeft]
  split_ifs <;> omega

/-- A header lies within the file, and its sizes have 32 bits. -/
theorem readHeader_inside
    {start hdrNamesize filesize : Nat}
    (reads : readHeader env format file start = some (hdrNamesize, filesize)) :
    start + format.headerSize + nameRead hdrNamesize ≤ file.length ∧
      0 < format.headerSize ∧ filesize < 2 ^ 32 := by
  have nonempty : 0 < format.headerSize := by cases format <;> exact Nat.zero_lt_succ _
  unfold readHeader at reads
  dsimp only at reads
  split_ifs at reads
  split at reads
  · cases reads
  · split_ifs at reads with tooShort
    cases reads
    exact ⟨Nat.le_of_not_lt tooShort, nonempty, Nat.mod_lt _ (by decide)⟩

section

variable {start hdrNamesize filesize : Nat}

/-- A name that fits leaves the position behind the header. -/
theorem nameEnd_of_fits
    (positive : 0 < w)
    (inside : start + format.headerSize + nameRead hdrNamesize < 2 ^ (w - 1))
    (fits : NameFits w format start hdrNamesize) :
    start + format.headerSize ≤ nameEnd w format start hdrNamesize ∧
      nameEnd w format start hdrNamesize < 2 ^ (w - 1) := by
  unfold NameFits at fits
  unfold nameEnd
  dsimp only
  rw [lseek_eq positive fits]
  split_ifs <;> omega

/-- A round goes on behind its header exactly if the file behind it fits. -/
theorem nextStart_gt_iff
    (atLeast : 32 ≤ w)
    (inside : file.length < 2 ^ (w - 1))
    (reads : readHeader env format file start = some (hdrNamesize, filesize))
    (fits : NameFits w format start hdrNamesize) :
    (∀ next, nextStart w env format file start = some next → start < next) ↔
      FileFits w env format start hdrNamesize filesize := by
  have positive : 0 < w := by omega
  obtain ⟨isInside, nonempty, -⟩ := readHeader_inside reads
  obtain ⟨ahead, below⟩ := nameEnd_of_fits positive (by omega) fits
  have wide : 2 ^ 32 ≤ 2 ^ w := Nat.pow_le_pow_right (by decide) atLeast
  have small : format.fileSkip filesize < 2 ^ 32 := Nat.mod_lt _ (by decide)
  rw [nextStart, reads, Option.bind_some, FileFits]
  dsimp only
  generalize nameEnd w format start hdrNamesize = pos at ahead below ⊢
  by_cases empty : filesize = 0
  · rw [if_pos empty]
    refine ⟨fun _ isFile => absurd empty isFile, fun _ next isNext => ?_⟩
    cases isNext
    omega
  rw [if_neg empty]
  cases env.dumpscan pos filesize with
  | none => exact ⟨fun _ _ scans => absurd rfl scans, fun _ next isNext => by cases isNext⟩
  | some dumped =>
    rw [Option.map_some]
    constructor
    · intro forward _ _
      have isNext := forward _ rfl
      by_contra back
      push Not at back
      rw [lseek_zero_wraps positive back.1 (by omega)] at isNext
      omega
    · intro fileFits next isNext
      cases isNext
      rcases fileFits empty (Option.some_ne_none _) with fits | passes
      · rw [lseek_eq positive (by omega)]
        split_ifs <;> omega
      · rw [lseek_zero_wraps positive (by omega) (by omega)]
        omega

end

/-- A round that goes on has read a header. -/
theorem startAt_succ
    {round next : Nat}
    (isNext : startAt w env format file (round + 1) = some next) :
    ∃ start hdrNamesize filesize, startAt w env format file round = some start ∧
      readHeader env format file start = some (hdrNamesize, filesize) ∧
        nextStart w env format file start = some next := by
  obtain ⟨start, isStart, isNext⟩ := Option.bind_eq_some_iff.mp isNext
  obtain ⟨⟨hdrNamesize, filesize⟩, reads, -⟩ := Option.bind_eq_some_iff.mp isNext
  exact ⟨start, hdrNamesize, filesize, isStart, reads, isNext⟩

/-- Rounds that only go on behind their headers come to the end of the file. -/
theorem advances_of_forward
    (forward : ∀ round start next, startAt w env format file round = some start →
      nextStart w env format file start = some next → start < next) :
    Advances w env format file := by
  have late (round : Nat) : ∀ start, startAt w env format file round = some start →
      round ≤ start := by
    induction round with
    | zero => exact fun _ _ => Nat.zero_le _
    | succ round inductionHypothesis =>
      intro next isNext
      obtain ⟨start, _, _, isStart, -, isNext⟩ := startAt_succ isNext
      exact Nat.lt_of_le_of_lt (inductionHypothesis start isStart)
        (forward round start next isStart isNext)
  refine ⟨fun round start next isStart isNext => ?_, ?_⟩
  · rw [startAt, isStart] at isNext
    exact forward round start next isStart isNext
  by_contra never
  obtain ⟨next, isNext⟩ := Option.ne_none_iff_exists'.mp (not_exists.mp never (file.length + 1))
  obtain ⟨start, _, _, isStart, reads, -⟩ := startAt_succ isNext
  have isLate := late file.length start isStart
  have isInside := readHeader_inside reads
  omega

/-- An archive whose names fit is read through exactly if its files fit. -/
theorem advances_iff_fits
    (atLeast : 32 ≤ w)
    (inside : file.length < 2 ^ (w - 1))
    (namesFit : ∀ start hdrNamesize filesize,
      Reads w env format file start hdrNamesize filesize → NameFits w format start hdrNamesize) :
    Advances w env format file ↔
      ∀ start hdrNamesize filesize, Reads w env format file start hdrNamesize filesize →
        FileFits w env format start hdrNamesize filesize := by
  constructor
  · rintro ⟨forward, -⟩ start hdrNamesize filesize reads
    have fits := namesFit start hdrNamesize filesize reads
    obtain ⟨⟨round, isStart⟩, isHeader⟩ := reads
    refine (nextStart_gt_iff atLeast inside isHeader fits).mp fun next isNext => ?_
    refine forward round start next isStart ?_
    rw [startAt, isStart]
    exact isNext
  · intro filesFit
    refine advances_of_forward fun round start next isStart isNext => ?_
    obtain ⟨⟨hdrNamesize, filesize⟩, isHeader, -⟩ := Option.bind_eq_some_iff.mp isNext
    have reads : Reads w env format file start hdrNamesize filesize := ⟨⟨round, isStart⟩, isHeader⟩
    exact (nextStart_gt_iff atLeast inside isHeader (namesFit _ _ _ reads)).mpr
      (filesFit _ _ _ reads) next isNext

/-- With an `off_t` that is wider than the sizes all names and files fit. -/
theorem fits_of_wide
    {start hdrNamesize filesize : Nat}
    (wide : 32 < w)
    (inside : file.length < 2 ^ (w - 1))
    (reads : readHeader env format file start = some (hdrNamesize, filesize)) :
    NameFits w format start hdrNamesize ∧ FileFits w env format start hdrNamesize filesize := by
  have isHalf : 2 ^ 32 ≤ 2 ^ (w - 1) := Nat.pow_le_pow_right (by decide) (by omega)
  have isDouble := Nat.two_pow_pred_mul_two (Nat.zero_lt_of_lt wide)
  obtain ⟨isInside, -⟩ := readHeader_inside reads
  have nameSmall : format.nameSkip hdrNamesize < 2 ^ 32 := Nat.mod_lt _ (by decide)
  have fileSmall : format.fileSkip filesize < 2 ^ 32 := Nat.mod_lt _ (by decide)
  have nameFits : NameFits w format start hdrNamesize := by
    unfold NameFits
    omega
  have below := (nameEnd_of_fits (by omega) (by omega) nameFits).2
  refine ⟨nameFits, fun _ _ => .inl ?_⟩
  omega

/-- A header of 26 bytes with a size that leads to the position 0 again. -/
def loopFile : List UInt8 :=
  [0xc7, 0x71] ++ replicate 20 0 ++ [0xff, 0xff, 0xe6, 0xff]

/-- The file is not scanned, as one over the limits. -/
def skips : Env where
  sscanf _ _ := none
  dumpscan _ _ := some 0

/-- Every round starts at the position 0. -/
theorem startAt_loopFile (round : Nat) : startAt 32 skips .old loopFile round = some 0 := by
  induction round with
  | zero => rfl
  | succ round inductionHypothesis =>
    rw [startAt, inductionHypothesis]
    decide +kernel

/--
With any `off_t` an archive whose names fit is read through exactly if its files
fit.  All archives are read through exactly with an `off_t` that is wider than the
sizes.
-/
theorem cpio_advances_iff
    (atLeast : 32 ≤ w) :
    (∀ env format file, file.length < 2 ^ (w - 1) →
      (∀ start hdrNamesize filesize, Reads w env format file start hdrNamesize filesize →
        NameFits w format start hdrNamesize) →
      (Advances w env format file ↔
        ∀ start hdrNamesize filesize, Reads w env format file start hdrNamesize filesize →
          FileFits w env format start hdrNamesize filesize)) ∧
    ((∀ env format file, file.length < 2 ^ (w - 1) → Advances w env format file) ↔ 32 < w) := by
  refine ⟨fun env format file inside => advances_iff_fits atLeast inside, ?_⟩
  constructor
  · intro advances
    rcases Nat.lt_or_eq_of_le atLeast with wide | rfl
    · exact wide
    obtain ⟨-, round, returns⟩ := advances skips .old loopFile (by decide)
    rw [startAt_loopFile round] at returns
    cases returns
  · intro wide env format file inside
    exact (advances_iff_fits atLeast inside
      fun _ _ _ reads => (fits_of_wide wide inside reads.2).1).mpr
        fun _ _ _ reads => (fits_of_wide wide inside reads.2).2

/-- Both widths of `off_t`: all archives with 64 bits, not all with 32 bits. -/
theorem cpio_advances_64 :
    (∀ env format file, file.length < 2 ^ 63 → Advances 64 env format file) ∧
      ¬ ∀ env format file, file.length < 2 ^ 31 → Advances 32 env format file :=
  ⟨(cpio_advances_iff (w := 64) (by decide)).2.mpr (by decide),
    fun all => absurd ((cpio_advances_iff (w := 32) (by decide)).2.mp all) (by decide)⟩

/-- With an `off_t` of 32 bits the header of `loopFile` is read again and again. -/
theorem header_read_again : loopFile.length = 26 ∧
    ∀ round, startAt 32 skips .old loopFile round = some 0 :=
  ⟨rfl, startAt_loopFile⟩

end LibClamav.Cpio
