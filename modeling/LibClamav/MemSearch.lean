import Mathlib.Algebra.Order.Group.Nat

namespace LibClamav.Mem

open List

/-!
# The search for a needle

`cli_memstr` looks at the second byte of the needle first, and skips the next position too if
that byte tells that the needle does not begin there.
-/

variable (memory : Nat → UInt8) (haystack needle : Nat)

/-- `memchr`, as an index -/
def memchr (byte : UInt8) (count : Nat) : Option Nat :=
  (range count).find? fun k => memory (haystack + k) == byte

/-- `!memcmp` -/
def memcmpSame (first second count : Nat) : Bool :=
  (range count).all fun k => memory (first + k) == memory (second + k)

/-- The loop of `cli_memstr`; `last` is `hs - ns`. -/
def memstrLoop (last ns s1 s2 : Nat) : Nat → Nat → Option (Option Nat)
  | 0, _ => none
  | fuel + 1, i =>
    if i ≤ last then
      if memory (needle + 1) ≠ memory (haystack + (i + 1) % 2 ^ 32) then
        memstrLoop last ns s1 s2 fuel ((i + s1) % 2 ^ 32)
      else if memory needle = memory (haystack + i) ∧
          memcmpSame memory (needle + 2) (haystack + i + 2) (ns - 2) then
        some (some i)
      else
        memstrLoop last ns s1 s2 fuel ((i + s2) % 2 ^ 32)
    else
      some none

/--
`cli_memstr` on two parts of the memory; the result is an index into the haystack, and `none`
outside means that the loop goes on.
-/
def cliMemstr (hs ns : UInt32) : Option (Option Nat) :=
  if hs = 0 ∨ ns = 0 ∨ hs < ns then
    some none
  else if needle = haystack then
    some (some 0)
  else if ns = 1 then
    some (memchr memory haystack (memory needle) hs.toNat)
  else if memory needle = memory (needle + 1) then
    memstrLoop memory haystack needle (hs.toNat - ns.toNat) ns.toNat 2 1 (hs.toNat + 2) 0
  else
    memstrLoop memory haystack needle (hs.toNat - ns.toNat) ns.toNat 1 2 (hs.toNat + 2) 0

/-- The needle stands at an index of the haystack. -/
def Occurs (hs ns index : Nat) : Prop :=
  index + ns ≤ hs ∧ ∀ k < ns, memory (needle + k) = memory (haystack + index + k)

/-- The first index with a property, or none if there is no such index. -/
def IsFirst (property : Nat → Prop) : Option Nat → Prop
  | some index => property index ∧ ∀ earlier < index, ¬ property earlier
  | none => ∀ index, ¬ property index

variable {memory haystack needle} {hs ns i : Nat}

/-- An occurrence, by its first two bytes and the rest. -/
theorem occurs_iff
    (long : 2 ≤ ns) :
    Occurs memory haystack needle hs ns i ↔
      i + ns ≤ hs ∧ memory needle = memory (haystack + i) ∧
        memory (needle + 1) = memory (haystack + (i + 1)) ∧
        memcmpSame memory (needle + 2) (haystack + i + 2) (ns - 2) = true := by
  obtain ⟨n, rfl⟩ := Nat.exists_eq_add_of_le' long
  unfold Occurs memcmpSame
  simp only [all_eq_true, mem_range, beq_iff_eq, Nat.forall_lt_succ_left, Nat.add_sub_cancel,
    add_zero, Nat.add_assoc, Nat.add_comm, Nat.add_left_comm]

/-- The loop stops at the first occurrence. -/
theorem memstrLoop_first
    {s1 s2 : Nat}
    (long : 2 ≤ ns)
    (fits : ns ≤ hs)
    (short : hs < 2 ^ 32)
    (steps : 1 ≤ s1 ∧ s1 ≤ 2 ∧ 1 ≤ s2 ∧ s2 ≤ 2)
    (same : s1 = 2 → memory needle = memory (needle + 1))
    (differ : s2 = 2 → memory needle ≠ memory (needle + 1))
    (fuel : Nat)
    (enough : hs - ns + 3 ≤ i + fuel)
    (near : i ≤ hs - ns + 2)
    (before : ∀ q < i, ¬ Occurs memory haystack needle hs ns q) :
    ∃ result, memstrLoop memory haystack needle (hs - ns) ns s1 s2 fuel i = some result ∧
      IsFirst (Occurs memory haystack needle hs ns) result := by
  induction fuel generalizing i with
  | zero => omega
  | succ fuel ih =>
    rw [memstrLoop]
    by_cases inside : i ≤ hs - ns
    swap
    · rw [if_neg inside]
      refine ⟨none, rfl, fun q occurs => before q ?_ occurs⟩
      have room := occurs.1
      omega
    rw [if_pos inside, Nat.mod_eq_of_lt (by omega : i + 1 < 2 ^ 32),
      Nat.mod_eq_of_lt (by omega : i + s1 < 2 ^ 32), Nat.mod_eq_of_lt (by omega : i + s2 < 2 ^ 32)]
    split_ifs with second isHere
    · refine ih (by omega) (by omega) fun q isBefore occurs => ?_
      obtain ⟨-, first, secondSame, -⟩ := (occurs_iff long).mp occurs
      rcases lt_trichotomy q i with less | isHere | greater
      · exact before q less occurs
      · exact second (isHere ▸ secondSame)
      · -- the byte that differs from the second one differs from the first one too
        have isNext : q = i + 1 := by omega
        rw [isNext, same (by omega)] at first
        exact second first
    · exact ⟨some i, rfl, (occurs_iff long).mpr
        ⟨by omega, isHere.1, not_not.mp second, isHere.2⟩, before⟩
    · refine ih (by omega) (by omega) fun q isBefore occurs => ?_
      obtain ⟨-, first, -, rest⟩ := (occurs_iff long).mp occurs
      rcases lt_trichotomy q i with less | rfl | greater
      · exact before q less occurs
      · exact isHere ⟨first, rest⟩
      · have isNext : q = i + 1 := by omega
        rw [isNext, ← not_not.mp second] at first
        exact differ (by omega) first

/-- `cli_memstr` returns, with the first occurrence of the needle. -/
theorem cliMemstr_first
    (memory : Nat → UInt8)
    (haystack needle : Nat)
    (hs ns : UInt32)
    (nonempty : ns ≠ 0) :
    ∃ result, cliMemstr memory haystack needle hs ns = some result ∧
      IsFirst (Occurs memory haystack needle hs.toNat ns.toNat) result := by
  have short := hs.toNat_lt
  have positive : ns.toNat ≠ 0 := fun isZero => nonempty (UInt32.toNat_inj.mp isZero)
  unfold cliMemstr
  split_ifs with tooShort samePlace single samePair
  · refine ⟨none, rfl, fun p occurs => ?_⟩
    have room := occurs.1
    rcases tooShort with isEmpty | isEmpty | less
    · rw [isEmpty, UInt32.toNat_zero] at room
      omega
    · exact nonempty isEmpty
    · have less := UInt32.lt_iff_toNat_lt.mp less
      omega
  all_goals
    have fits : ns.toNat ≤ hs.toNat :=
      UInt32.le_iff_toNat_le.mp (UInt32.not_lt.mp fun less => tooShort (.inr (.inr less)))
  · refine ⟨some 0, rfl, ⟨by omega, fun k _ => ?_⟩, nofun⟩
    rw [samePlace, add_zero]
  · subst single
    have isByte (p : Nat) : Occurs memory haystack needle hs.toNat (1 : UInt32).toNat p ↔
        p < hs.toNat ∧ memory needle = memory (haystack + p) := by
      refine and_congr Nat.succ_le_iff ?_
      simp
    unfold memchr
    cases found : (range hs.toNat).find? fun k => memory (haystack + k) == memory needle with
    | none =>
      refine ⟨none, rfl, fun p occurs => ?_⟩
      obtain ⟨inside, same⟩ := (isByte p).mp occurs
      exact find?_eq_none.mp found p (mem_range.mpr inside) (beq_iff_eq.mpr same.symm)
    | some p =>
      obtain ⟨same, inside, earlier⟩ := find?_range_eq_some.mp found
      refine ⟨some p, rfl, (isByte p).mpr ⟨mem_range.mp inside, (beq_iff_eq.mp same).symm⟩,
        fun q less occurs => ?_⟩
      have differs := earlier q less
      rw [((isByte q).mp occurs).2, beq_self_eq_true] at differs
      cases differs
  all_goals
    have long : 2 ≤ ns.toNat := by
      have notOne : ns.toNat ≠ 1 := fun isOne => single (UInt32.toNat_inj.mp isOne)
      omega
  all_goals
    refine memstrLoop_first long fits short (by decide) ?_ ?_ _ (by omega) (by omega) nofun
    all_goals simp [samePair]

/-- `abaabab`, and behind it `abab`. -/
def overlapping (address : Nat) : UInt8 :=
  [0x61, 0x62, 0x61, 0x61, 0x62, 0x61, 0x62, 0x61, 0x62, 0x61, 0x62].getD address 0

/-- The needle `abab` begins like its second half; the loop skips to where it stands. -/
theorem cliMemstr_first_overlapping :
    (4 : UInt32) ≠ 0 ∧ cliMemstr overlapping 0 7 7 4 = some (some 3) ∧
      ∃ result, cliMemstr overlapping 0 7 7 4 = some result ∧
        IsFirst (Occurs overlapping 0 7 7 4) result :=
  ⟨by decide, by decide, cliMemstr_first overlapping 0 7 7 4 (by decide)⟩

end LibClamav.Mem
