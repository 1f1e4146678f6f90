import LibClamav.AcPattern
import Mathlib.Data.List.Range

namespace LibClamav.Matcher

open List

/-!
# The windows of `cli_fmap_scandesc`

A file is scanned in windows that overlap by the longest pattern.  The digest of the
file is fed in the same loop with the bytes of each window that the window before has
not had.  `offset` has 32 bits; so has the number of pages that `fmap` maps, and a file
whose offsets would wrap has no map.

The reads of the windows succeed, and no window ends the scan.
-/

section

variable (len maxpatlen : Nat)

/-- `bytes`, the size of the window at an offset. -/
def windowBytes (offset : Nat) : Nat :=
  min (len - offset) Ac.scanBuff

/-- The windows of the loop from an offset on, in at most so many turns: their offsets and sizes. -/
def windows : (turns offset : Nat) → List (Nat × Nat)
  | 0, _ => []
  | turns + 1, offset =>
    if offset < len then
      (offset, windowBytes len offset) ::
        if windowBytes len offset < Ac.scanBuff then
          []
        else
          windows turns ((offset + windowBytes len offset - maxpatlen) % 2 ^ 32)
    else
      []

/-- `maxpatlen * (offset!=0)` -/
def skipped (offset : Nat) : Nat :=
  maxpatlen * (if offset ≠ 0 then 1 else 0)

/--
The positions in the file of the bytes of one `cli_md5_update`; its length is a
difference of 32 bits.
-/
def md5Update (window : Nat × Nat) : List Nat :=
  range' (window.1 + skipped maxpatlen window.1)
    ((window.2 + 2 ^ 32 - skipped maxpatlen window.1) % 2 ^ 32)

/-- The positions that the loop hands to `cli_md5_update` in so many turns. -/
def digested (turns : Nat) : List Nat :=
  (windows len maxpatlen turns 0).flatMap (md5Update maxpatlen)

end

/-- `fmap_align_items`; the size is an `unsigned int`. -/
def fmapAlignItems (sz al : Nat) : Nat :=
  sz % 2 ^ 32 / al + if sz % 2 ^ 32 % al ≠ 0 then 1 else 0

/--
The pages of the map that `fmap` makes for a file hold all of it.  For any other file
the first reads, those of `cache_check`, already leave the map.
-/
def Mapped (len pgsz : Nat) : Prop :=
  len ≤ fmapAlignItems len pgsz * pgsz

/-- A file that is mapped has less than 4 GiB. -/
theorem Mapped.lt
    {len pgsz : Nat}
    (mapped : Mapped len pgsz)
    (isPage : pgsz ≤ 2 ^ 32) :
    len < 2 ^ 32 := by
  by_contra isLong
  have whole := Nat.div_add_mod (len % 2 ^ 32) pgsz
  have quotient := Nat.div_add_mod len (2 ^ 32)
  have isPositive : 1 ≤ len / 2 ^ 32 :=
    (Nat.one_le_div_iff (by decide)).2 (by omega)
  unfold Mapped fmapAlignItems at mapped
  rw [Nat.add_mul, Nat.mul_comm _ pgsz] at mapped
  split_ifs at mapped with isRest
  · rcases Nat.eq_zero_or_pos pgsz with rfl | positive
    · omega
    · have := Nat.mod_lt (len % 2 ^ 32) positive
      omega
  · omega

variable {len maxpatlen offset turns : Nat}

/-- From an offset to the end of the file, without what the window before has had. -/
def restOf (len maxpatlen offset : Nat) : List Nat :=
  range' (offset + skipped maxpatlen offset) (len - (offset + skipped maxpatlen offset))

theorem skipped_le : skipped maxpatlen offset ≤ maxpatlen := by
  unfold skipped
  split <;> omega

theorem skipped_of_pos (positive : 0 < offset) : skipped maxpatlen offset = maxpatlen := by
  rw [skipped, if_pos (by omega), mul_one]

/-- What a window hands over, if it is not shorter than what it shares. -/
theorem md5Update_eq
    {bytes : Nat}
    (isSmall : bytes ≤ Ac.scanBuff)
    (shared : skipped maxpatlen offset ≤ bytes) :
    md5Update maxpatlen (offset, bytes) =
      range' (offset + skipped maxpatlen offset) (bytes - skipped maxpatlen offset) := by
  have isBuffer : Ac.scanBuff = 131072 := rfl
  have isDifference : bytes + 2 ^ 32 - skipped maxpatlen offset =
      bytes - skipped maxpatlen offset + 2 ^ 32 := by
    omega
  rw [md5Update, isDifference, Nat.add_mod_right, Nat.mod_eq_of_lt (by omega)]

/-- The last window, which is shorter than the others, ends the loop. -/
theorem windows_short
    (short : len < offset + Ac.scanBuff)
    (inside : offset + skipped maxpatlen offset ≤ len) :
    (windows len maxpatlen (turns + 1) offset).flatMap (md5Update maxpatlen) =
      restOf len maxpatlen offset := by
  unfold windows
  split_ifs with isOffset isBytes
  · have isRest : windowBytes len offset = len - offset := min_eq_left (by omega)
    rw [flatMap_singleton, isRest, md5Update_eq (by omega) (by omega), restOf, Nat.sub_sub]
  · exact absurd (lt_of_le_of_lt (min_le_left _ _) (by omega)) isBytes
  · rw [restOf, show len - (offset + skipped maxpatlen offset) = 0 by omega]
    rfl

/-- A full window and the rest behind it are the rest from its offset on. -/
theorem restOf_full
    (isShort : maxpatlen < Ac.scanBuff)
    (full : offset + Ac.scanBuff ≤ len) :
    restOf len maxpatlen offset =
      range' (offset + skipped maxpatlen offset) (Ac.scanBuff - skipped maxpatlen offset) ++
        restOf len maxpatlen (offset + Ac.scanBuff - maxpatlen) := by
  have shared := @skipped_le maxpatlen offset
  rw [restOf, restOf, @skipped_of_pos maxpatlen (offset + Ac.scanBuff - maxpatlen) (by omega),
    show offset + Ac.scanBuff - maxpatlen + maxpatlen =
      offset + skipped maxpatlen offset + (Ac.scanBuff - skipped maxpatlen offset) by omega,
    range'_append_1]
  congr 1
  omega

/-- The loop ends, and hands over what is left, in as many turns as bytes are left. -/
theorem windows_rest
    (isShort : maxpatlen < Ac.scanBuff)
    (isFile : len < 2 ^ 32)
    (inside : offset + skipped maxpatlen offset ≤ len)
    (enough : len < offset + turns) :
    (windows len maxpatlen turns offset).flatMap (md5Update maxpatlen) =
        restOf len maxpatlen offset ∧
      ∀ more, windows len maxpatlen (turns + more) offset =
        windows len maxpatlen turns offset := by
  induction turns generalizing offset with
  | zero =>
      omega
  | succ turns inductionHypothesis =>
      by_cases full : offset + Ac.scanBuff ≤ len
      · have isBytes : windowBytes len offset = Ac.scanBuff := min_eq_right (by omega)
        have isWindow : ∀ turns, windows len maxpatlen (turns + 1) offset =
            (offset, Ac.scanBuff) ::
              windows len maxpatlen turns (offset + Ac.scanBuff - maxpatlen) := by
          intro turns
          rw [windows, isBytes, if_pos (by omega), if_neg (lt_irrefl _),
            Nat.mod_eq_of_lt (by omega)]
        have shared := @skipped_le maxpatlen offset
        have nextShared := @skipped_le maxpatlen (offset + Ac.scanBuff - maxpatlen)
        obtain ⟨hands, ends⟩ :=
          @inductionHypothesis (offset + Ac.scanBuff - maxpatlen) (by omega) (by omega)
        constructor
        · rw [isWindow, flatMap_cons, hands, md5Update_eq le_rfl (by omega),
            restOf_full isShort full]
        · intro more
          rw [Nat.add_right_comm, isWindow, isWindow, ends]
      · refine ⟨windows_short (by omega) inside, fun more => ?_⟩
        have isLast : windowBytes len offset < Ac.scanBuff :=
          lt_of_le_of_lt (min_le_left _ _) (by
            have : 0 < Ac.scanBuff := by decide
            omega)
        simp only [Nat.add_right_comm, windows, if_pos isLast]

/--
The loop over a mapped file ends, and hands every byte of the file to `cli_md5_update`
once and in order, whatever the windows share.
-/
theorem digest_of_file
    (len maxpatlen pgsz : Nat)
    (isShort : maxpatlen < Ac.scanBuff)
    (isPage : pgsz ≤ 2 ^ 32)
    (mapped : Mapped len pgsz) :
    ∃ turns, ∀ more,
      windows len maxpatlen (turns + more) 0 = windows len maxpatlen turns 0 ∧
        digested len maxpatlen (turns + more) = range len := by
  have isFile : range len = restOf len maxpatlen 0 := by
    rw [restOf, skipped, range_eq_range']
    rfl
  obtain ⟨hands, ends⟩ :=
    @windows_rest len maxpatlen 0 (len + 1) isShort (mapped.lt isPage) (Nat.zero_le _)
      (by omega)
  refine ⟨len + 1, fun more => ⟨ends more, ?_⟩⟩
  rw [digested, ends more, hands, isFile]

/-- A file of 1 GiB is digested as a whole, with windows that share 100 bytes. -/
theorem digest_of_file_of_1gib :
    100 < Ac.scanBuff ∧ Mapped (2 ^ 30) 4096 ∧
      ∃ turns, ∀ more,
        windows (2 ^ 30) 100 (turns + more) 0 = windows (2 ^ 30) 100 turns 0 ∧
          digested (2 ^ 30) 100 (turns + more) = range (2 ^ 30) := by
  have mapped : Mapped (2 ^ 30) 4096 := by
    unfold Mapped fmapAlignItems
    decide
  exact ⟨by decide, mapped,
    digest_of_file (2 ^ 30) 100 4096 (by decide) (by decide) mapped⟩

end LibClamav.Matcher
