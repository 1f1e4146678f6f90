import Mathlib.Data.List.TakeDrop
import Mathlib.Data.List.TakeWhile

namespace LibClamav.Dsig

open List (range replicate zipWith take_left)

/-!
# Signatures of database updates

`cli_versig2` looks for the first byte 1 behind the mask and does not read what stands
in front of it, which an EMSA-PSS encoding has as zeros.  SHA-256 is any function.
-/

section

/-- 32 bytes: a digest, or the salt -/
abbrev Digest := Vector UInt8 32

/-- `decoded`: what `cli_decodesig` returns for `PAD_LEN` -/
abbrev Decoded := Vector UInt8 256

inductive Verdict where
  | success
  | everify
  deriving Repr, DecidableEq

variable (sha256 : List UInt8 → Digest)

/-- `digest2`, the bytes behind the first `BLK_LEN` -/
def digest2 (decoded : Decoded) : List UInt8 := (decoded.toList.drop 223).take 32

/-- `data` behind the loop over the rounds -/
def maskOf (decoded : Decoded) : List UInt8 := ((range 7).flatMap fun i =>
    (sha256 (digest2 decoded ++ [0, 0, UInt8.ofNat (i / 256), UInt8.ofNat i])).toList).take 223

/-- `data` without the mask, and with the first bit cleared -/
def dataOf (decoded : Decoded) : List UInt8 :=
  (zipWith (· ^^^ ·) (maskOf sha256 decoded) (decoded.toList.take 223)).modifyHead (· &&& 0x7f)

/-- `cli_versig2`, from the block of `cli_decodesig` on; `memchr` gives a rest of `data`. -/
def cliVersig2 (digest : Digest) (decoded : Option Decoded) : Verdict :=
  match decoded with
  | none => .everify
  | some decoded =>
    if decoded.toList.getLast? ≠ some 0xbc then
      .everify
    else
      match (dataOf sha256 decoded).dropWhile (· != 1) with
      | [] => .everify
      | _ :: salt =>
        if salt.length ≠ 32 then
          .everify
        else if (sha256 (replicate 8 0 ++ digest.toList ++ salt)).toList = digest2 decoded then
          .success
        else
          .everify

end

section

variable (sha256 : List UInt8 → Digest) (digest : Digest) (decoded : Decoded)

/-- The bytes in front of the separator -/
def paddingOf : List UInt8 := (dataOf sha256 decoded).take 190

/-- The trailer, the separator and the hash of the digest with the salt -/
structure Framed : Prop where
  trailer : decoded.toList.getLast? = some 0xbc
  separator : (dataOf sha256 decoded)[190]? = some 1
  hash : (sha256 (replicate 8 0 ++ digest.toList ++ (dataOf sha256 decoded).drop 191)).toList =
    digest2 decoded

/-- An EMSA-PSS encoding of the digest with a salt of 32 bytes -/
structure ValidPss : Prop extends Framed sha256 digest decoded where
  zeros : ∀ b ∈ paddingOf sha256 decoded, b = 0

variable {sha256 digest decoded}

theorem length_dataOf : (dataOf sha256 decoded).length = 223 := by
  have isMask : (maskOf sha256 decoded).length = 223 := by simp [maskOf, range, List.range.loop]
  simp [dataOf, isMask]

theorem dropWhile_ne_one_iff
    {bytes salt : List UInt8}
    {b : UInt8} :
    bytes.dropWhile (· != 1) = b :: salt ↔
      b = 1 ∧ ∃ front, 1 ∉ front ∧ bytes = front ++ 1 :: salt := by
  constructor
  · intro isRest
    have isBytes := List.takeWhile_append_dropWhile (p := (· != 1)) (l := bytes)
    have stops := List.head?_dropWhile_not (· != 1) bytes
    rw [isRest] at isBytes stops
    obtain rfl : b = 1 := by simpa using stops
    refine ⟨rfl, _, fun inside => ?_, isBytes.symm⟩
    exact absurd (List.mem_takeWhile_imp inside) (by decide)
  · rintro ⟨rfl, front, clean, rfl⟩
    have all : ∀ c ∈ front, (c != 1) = true :=
      fun c mem => bne_iff_ne.mpr fun same => clean (same ▸ mem)
    rw [List.dropWhile_append_of_pos all]
    rfl

/-- When a padded signature is accepted. -/
theorem cliVersig2_success_iff : cliVersig2 sha256 digest (some decoded) = .success ↔
      Framed sha256 digest decoded ∧ 1 ∉ paddingOf sha256 decoded := by
  have isLength := @length_dataOf sha256 decoded
  constructor
  · intro accepted
    dsimp only [cliVersig2] at accepted
    split_ifs at accepted with isTrailer
    split at accepted
    · cases accepted
    rename_i b salt isRest
    split_ifs at accepted with isSalt isHash
    obtain ⟨-, front, clean, isData⟩ := dropWhile_ne_one_iff.1 isRest
    -- 32 bytes of salt leave 190 bytes for what stands in front of the separator
    have isFront : front.length = 190 := by
      rw [isData, List.length_append, List.length_cons] at isLength
      omega
    refine ⟨⟨not_not.1 isTrailer, ?_, ?_⟩, ?_⟩
    · rw [isData, ← isFront, List.getElem?_append_right (Nat.le_refl _), Nat.sub_self]
      rfl
    · rw [isData, show 191 = front.length + 1 by omega, List.drop_length_add_append]
      exact isHash
    · rwa [paddingOf, isData, ← isFront, take_left]
  · rintro ⟨⟨isTrailer, isSeparator, isHash⟩, clean⟩
    have isData : dataOf sha256 decoded =
        paddingOf sha256 decoded ++ 1 :: (dataOf sha256 decoded).drop 191 := by
      obtain ⟨inside, isByte⟩ := List.getElem?_eq_some_iff.1 isSeparator
      rw [paddingOf, ← isByte, ← List.drop_eq_getElem_cons, List.take_append_drop]
    have isRest := dropWhile_ne_one_iff.2 ⟨rfl, _, clean, isData⟩
    simp only [cliVersig2, isTrailer, isRest, isHash, List.length_drop, isLength]
    rfl

/-- An accepted block is an encoding of the digest, unless it has the frame of one around
padding that has another byte than 0, and no byte 1. -/
theorem accepted_valid_iff :
    (cliVersig2 sha256 digest (some decoded) = .success → ValidPss sha256 digest decoded) ↔
      (Framed sha256 digest decoded → 1 ∉ paddingOf sha256 decoded →
        ∀ b ∈ paddingOf sha256 decoded, b = 0) := by
  rw [cliVersig2_success_iff]
  constructor
  · intro valid framed clean
    exact (valid ⟨framed, clean⟩).zeros
  · rintro zeros ⟨framed, clean⟩
    exact ⟨framed, zeros framed clean⟩

end

/-- A block whose padding starts with 2 -/
def paddedBlock : Decoded := ((Vector.replicate 256 0).set 0 2).set 190 1 |>.set 255 0xbc

/-- Where SHA-256 gives zeros, a block whose padding starts with 2 is accepted. -/
theorem padded_block_accepted :
    cliVersig2 (fun _ => Vector.replicate 32 0) (Vector.replicate 32 0) (some paddedBlock) =
        .success ∧
      ¬ ValidPss (fun _ => Vector.replicate 32 0) (Vector.replicate 32 0) paddedBlock := by
  refine ⟨by decide +kernel, fun valid => ?_⟩
  exact absurd (valid.zeros 2 (by decide +kernel)) (by decide)

end LibClamav.Dsig
