import LibClamav.AcAddsig
import LibClamav.Versig

namespace LibClamav.Dsig

open Option

open List (range idxOf? foldlM_append)

/-!
# Signatures of MD5 texts

`cli_versig` compares the text with the last 16 bytes of the decoded number, whatever
stands in front of them.  The arithmetic of bignum.c is that of the numbers.
-/

/-- `ncodec` -/
def ncodec : List Char := "abcdefghijklmnopqrstuvwxyzABCDEFGHIJKLMNOPQRSTUVWXYZ0123456789+/".toList

/-- `cli_ndecode` -/
def cliNdecode (value : Char) : Option Nat := ncodec.idxOf? value

/-- `c`, the number of a signature, from its character `i` on -/
def sigNumber : (i c : Nat) → List Char → Option Nat
  | _, c, [] => some c
  | i, c, value :: sig =>
    (cliNdecode value).bind fun dec => sigNumber (i + 1) (dec * 2 ^ (6 * i) + c) sig

/-- `plain`: the last bytes of a number, filled in from the end -/
def plainBytes : (plen p : Nat) → List Nat
  | 0, _ => []
  | plen + 1, p => plainBytes plen (p / 256) ++ [p % 256]

/-- `cli_decodesig` -/
def cliDecodesig (sig : List Char) (plen e n : Nat) : Option (List Nat) :=
  (sigNumber 0 0 sig).map fun c => plainBytes plen (c ^ e % n)

/-- `HEX` -/
def hexDigits : List Char := "0123456789abcdef".toList

/-- `cli_str2hex` -/
def cliStr2hex (string : List Nat) : List Char :=
  string.flatMap fun b => [hexDigits.getD (b / 16 % 16) '0', hexDigits.getD (b % 16) '0']

/-- `CLI_NSTR` -/
def cliN : Nat :=
  118640995551645342603070001658453189751527774412027743746599405743243142607464144767361060640655844749760788890022283424922762488917565551002467771109669598189410434699034532232228621591089508178591428456220796841621637175567590476666928698770143328137383952820383197532047771780196576957695822641224262693037

/-- `CLI_ESTR`; a power with this exponent is not to be computed. -/
@[irreducible] def cliE : Nat := 100001027

/-- `cli_versig` -/
def cliVersig (md5 dsig : List Char) : Verdict :=
  if md5.length ≠ 32 ∨ ¬ (md5.head?.any Char.isAlphanum) then
    .everify
  else
    match cliDecodesig dsig 16 cliE cliN with
    | none => .everify
    | some pt => if md5 = cliStr2hex pt then .success else .everify

/-- The number that a text of hexadecimal digits writes -/
def hexNumber (text : List Char) : Option Nat :=
  text.foldlM (fun number digit => (Ac.cliHex2int digit).map (16 * number + ·)) 0

theorem cliHex2int_hexDigits : ∀ b < 16, Ac.cliHex2int (hexDigits.getD b '0') = some b := by
  decide

theorem hexNumber_plainBytes
    (plen p : Nat) :
    hexNumber (cliStr2hex (plainBytes plen p)) = some (p % 256 ^ plen) := by
  induction plen generalizing p with
  | zero => simp [plainBytes, cliStr2hex, hexNumber, Nat.mod_one]
  | succ plen ih =>
    have ih := ih (p / 256)
    rw [hexNumber, cliStr2hex] at ih ⊢
    rw [plainBytes, List.flatMap_append, foldlM_append, ih]
    simp only [List.flatMap_cons, List.flatMap_nil, List.append_nil, List.foldlM_cons,
      List.foldlM_nil, bind_eq_bind, bind_some, map_some, pure_def,
      cliHex2int_hexDigits _ (Nat.mod_lt _ (by decide : 0 < 16))]
    have isRest : p % 256 ^ (plen + 1) = p % 256 + 256 * (p / 256 % 256 ^ plen) := by
      rw [pow_succ, mul_comm, Nat.mod_mul]
    rw [isRest]
    congr 1
    omega

/-- A number of 16 bytes is written whole. -/
theorem hexNumber_eq_iff
    {p : Nat} :
    hexNumber (cliStr2hex (plainBytes 16 p)) = some p ↔ p < 2 ^ 128 := by
  rw [hexNumber_plainBytes, some_inj, Nat.mod_eq_iff_lt (by decide)]
  rfl

theorem length_plainBytes (plen p : Nat) : (plainBytes plen p).length = plen := by
  induction plen generalizing p with
  | zero => rfl
  | succ plen ih => rw [plainBytes, List.length_append, ih, List.length_singleton]

/-- The text of 16 bytes passes the test of `cli_versig`. -/
theorem hexText_passes
    {bytes : List Nat}
    (isFull : bytes.length = 16) :
    (cliStr2hex bytes).length = 32 ∧ (cliStr2hex bytes).head?.any Char.isAlphanum = true := by
  constructor
  · simp [cliStr2hex, List.length_flatMap, isFull]
  · obtain ⟨b, rest, rfl⟩ := List.exists_cons_of_length_eq_add_one isFull
    have digits : ∀ b < 16, (hexDigits.getD b '0').isAlphanum = true := by decide
    exact digits _ (Nat.mod_lt _ (by decide))

/-- When a signature is accepted. -/
theorem cliVersig_success_iff
    {md5 dsig : List Char} :
    cliVersig md5 dsig = .success ↔
      ∃ c, sigNumber 0 0 dsig = some c ∧ md5 = cliStr2hex (plainBytes 16 (c ^ cliE % cliN)) := by
  unfold cliVersig cliDecodesig
  cases isSig : sigNumber 0 0 dsig with
  | none => simp
  | some c =>
    simp only [map_some, some.injEq, exists_eq_left']
    constructor
    · intro accepted
      split_ifs at accepted with isTest isText
      exact isText
    intro isText
    obtain ⟨isFull, isStart⟩ := hexText_passes (length_plainBytes 16 (c ^ cliE % cliN))
    rw [← isText] at isFull isStart
    rw [if_neg (by simp [isFull, isStart]), if_pos isText]

/-- An accepted text is the decoded number, unless the number has more than 16 bytes and
the text is that of its last 16. -/
theorem accepted_exact_iff
    {md5 dsig : List Char} :
    (cliVersig md5 dsig = .success →
        ∃ c, sigNumber 0 0 dsig = some c ∧ hexNumber md5 = some (c ^ cliE % cliN)) ↔
      ∀ c, sigNumber 0 0 dsig = some c →
        md5 = cliStr2hex (plainBytes 16 (c ^ cliE % cliN)) → c ^ cliE % cliN < 2 ^ 128 := by
  rw [cliVersig_success_iff]
  constructor
  · intro exact c isSig isText
    obtain ⟨same, isSame, isExact⟩ := exact ⟨c, isSig, isText⟩
    rw [← some.inj (isSig.symm.trans isSame), isText] at isExact
    exact hexNumber_eq_iff.1 isExact
  rintro small ⟨c, isSig, isText⟩
  refine ⟨c, isSig, ?_⟩
  rw [isText]
  exact hexNumber_eq_iff.2 (small c isSig isText)

/-- A power modulo `n` by squaring, for an exponent of so many bits -/
def powMod (c n : Nat) : (bits e : Nat) → Nat
  | 0, _ => 1 % n
  | bits + 1, e => powMod c n bits (e / 2) ^ 2 * c ^ (e % 2) % n

/-- The loop computes a power. -/
theorem powMod_eq
    {c n : Nat}
    (bits : Nat)
    {e : Nat}
    (isShort : e < 2 ^ bits) :
    powMod c n bits e = c ^ e % n := by
  induction bits generalizing e with
  | zero => rw [Nat.lt_one_iff.mp isShort, pow_zero, powMod]
  | succ bits ih =>
    have isPower : c ^ e = (c ^ (e / 2)) ^ 2 * c ^ (e % 2) := by
      rw [← Nat.pow_mul, ← Nat.pow_add, mul_comm, Nat.div_add_mod]
    rw [powMod, ih (by omega), isPower, Nat.mul_mod, Nat.pow_mod, Nat.mod_mod, ← Nat.pow_mod,
      ← Nat.mul_mod]

/-- The number of the signature `c` is 2, and its power has far more than 16 bytes. -/
theorem long_number_accepted :
    let md5 := cliStr2hex (plainBytes 16 (2 ^ cliE % cliN))
    cliVersig md5 ['c'] = .success ∧ hexNumber md5 ≠ some (2 ^ cliE % cliN) := by
  refine ⟨cliVersig_success_iff.2 ⟨2, by decide, rfl⟩, ?_⟩
  rw [Ne, hexNumber_eq_iff, ← powMod_eq 27 (by decide +kernel)]
  decide +kernel

end LibClamav.Dsig
