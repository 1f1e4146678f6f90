import Mathlib.Algebra.Order.Ring.Nat
import Mathlib.Data.List.Induction

namespace LibClamav.Limits

open List

/-!
# The counters of the scan limits

`cli_checklimits`, and `cli_updatelimits` with all limits set.  The limits have 64
bits, and the sum of the accepted sizes is an `unsigned long` of `w` bits, so that
it is right if no sum within the limits passes `2 ^ w`.
-/

/-- The limits of `struct cl_engine`; 0 is none. -/
structure Maxima where
  maxscansize : Nat
  maxfilesize : Nat
  maxfiles : Nat

/-- An engine with each limit set. -/
structure Engine extends Maxima where
  isScansize : 0 < maxscansize ∧ maxscansize < 2 ^ 64
  isFilesize : 0 < maxfilesize ∧ maxfilesize < 2 ^ 64
  isFiles : 0 < maxfiles ∧ maxfiles < 2 ^ 32

/-- The counters of `cli_ctx`. -/
structure Ctx where
  scansize : Nat := 0
  scannedfiles : Nat := 0
  deriving Repr, DecidableEq

inductive Ret where
  | clean
  | emaxsize
  | emaxfiles
  deriving Repr, DecidableEq

section

variable (maxima : Maxima) (engine : Engine) (ctx : Ctx)

/-- `cli_checklimits` -/
def cliChecklimits (need1 need2 need3 : Nat) : Ret :=
  let needed := max (max need1 need2) need3
  let ret := if needed ≠ 0 ∧ maxima.maxscansize ≠ 0 ∧
      (maxima.maxscansize + 2 ^ 64 - ctx.scansize) % 2 ^ 64 < needed then .emaxsize else .clean
  let ret := if needed ≠ 0 ∧ maxima.maxfilesize ≠ 0 ∧ maxima.maxfilesize < needed then
    .emaxsize else ret
  if maxima.maxfiles ≠ 0 ∧ maxima.maxfiles ≤ ctx.scannedfiles then .emaxfiles else ret

/-- `cli_updatelimits` for a sum of `w` bits. -/
def cliUpdatelimits (w needed : Nat) : Ret × Ctx :=
  let ret := cliChecklimits engine.toMaxima ctx needed 0 0
  if ret ≠ .clean then
    (ret, ctx)
  else
    let scansize := (ctx.scansize + needed) % 2 ^ w
    (.clean,
      { scansize := if scansize > engine.maxscansize then engine.maxscansize % 2 ^ w else scansize
        scannedfiles := (ctx.scannedfiles + 1) % 2 ^ 32 })

end

variable {engine : Engine} {w : Nat}

/-- A call with its sizes. -/
inductive Call (w : Nat) where
  | check (need1 need2 need3 : Fin (2 ^ w))
  | update (needed : Fin (2 ^ w))

/-- A call on the counters and the sizes that were accepted. -/
def step (engine : Engine) (state : Ctx × List Nat) : Call w → Ctx × List Nat
  | .check _ _ _ => state
  | .update needed =>
    match cliUpdatelimits engine state.1 w needed with
    | (.clean, later) => (later, needed.val :: state.2)
    | (_, later) => (later, state.2)

def run (engine : Engine) (calls : List (Call w)) : Ctx × List Nat :=
  calls.foldl (step engine) ({}, [])

/-- The counters stay within the limits and are those of the accepted sizes. -/
def Accounts (engine : Engine) (w : Nat) : Prop :=
  (∀ (ctx : Ctx) (needed : Fin (2 ^ w)), (cliUpdatelimits engine ctx w needed).1 ≠ .clean →
    (cliUpdatelimits engine ctx w needed).2 = ctx) ∧
  ∀ calls : List (Call w), (run engine calls).1.scansize ≤ engine.maxscansize ∧
    (run engine calls).1.scansize = (run engine calls).2.sum ∧
    (run engine calls).1.scannedfiles ≤ engine.maxfiles

variable {ctx : Ctx}

/-- What a size within the sums accepted so far passes. -/
def Passes (engine : Engine) (ctx : Ctx) (needed : Nat) : Prop :=
  ctx.scannedfiles < engine.maxfiles ∧ ctx.scansize + needed ≤ engine.maxscansize ∧
    needed ≤ engine.maxfilesize

/-- What a size has to pass. -/
theorem cliChecklimits_clean_iff
    (bounded : ctx.scansize ≤ engine.maxscansize)
    (needed : Nat) :
    cliChecklimits engine.toMaxima ctx needed 0 0 = .clean ↔ Passes engine ctx needed := by
  have isScansize := engine.isScansize
  have isFilesize := engine.isFilesize
  have isFiles := engine.isFiles
  have isLeft : (engine.maxscansize + 2 ^ 64 - ctx.scansize) % 2 ^ 64 =
      engine.maxscansize - ctx.scansize := by omega
  rw [cliChecklimits, isLeft, Passes, Nat.max_zero, Nat.max_zero]
  split_ifs <;> simp <;> omega

/-- An accepted size is added. -/
theorem step_update
    (bounded : ctx.scansize ≤ engine.maxscansize)
    (accepted : List Nat)
    (needed : Fin (2 ^ w))
    (passes : Passes engine ctx needed) :
    step engine (ctx, accepted) (.update needed) =
      (⟨(ctx.scansize + needed) % 2 ^ w, ctx.scannedfiles + 1⟩, needed.val :: accepted) := by
  have isSum := Nat.mod_le (ctx.scansize + needed) (2 ^ w)
  have isNext : (ctx.scannedfiles + 1) % 2 ^ 32 = ctx.scannedfiles + 1 :=
    Nat.mod_eq_of_lt (by have := engine.isFiles; have := passes.1; omega)
  rw [step, cliUpdatelimits, (cliChecklimits_clean_iff bounded needed).mpr passes]
  simp only [ne_eq, not_true_eq_false, ↓reduceIte]
  rw [if_neg (by have := passes.2.1; omega), isNext]

theorem step_rejected
    (bounded : ctx.scansize ≤ engine.maxscansize)
    (accepted : List Nat)
    (needed : Fin (2 ^ w))
    (fails : ¬ Passes engine ctx needed) :
    step engine (ctx, accepted) (.update needed) = (ctx, accepted) := by
  have rejects := mt (cliChecklimits_clean_iff bounded needed).mp fails
  rw [step, cliUpdatelimits, if_pos rejects]
  cases isRet : cliChecklimits engine.toMaxima ctx needed 0 0
  · exact absurd isRet rejects
  · rfl
  · rfl

/-- The counters of the accepted sizes, none larger than a file may be. -/
structure Counted (engine : Engine) (w : Nat) (state : Ctx × List Nat) : Prop where
  size : state.1.scansize = state.2.sum
  bounded : state.2.sum ≤ engine.maxscansize
  files : state.1.scannedfiles = state.2.length
  few : state.2.length ≤ engine.maxfiles
  small : state.2.sum ≤ state.2.length * min engine.maxfilesize (2 ^ w - 1)

/-- No sum within the limits passes what the counter holds. -/
def Fits (engine : Engine) (w : Nat) : Prop :=
  engine.maxscansize < 2 ^ w ∨ engine.maxfiles * min engine.maxfilesize (2 ^ w - 1) < 2 ^ w

/-- A call keeps the counters right. -/
theorem Counted.step
    (fits : Fits engine w)
    {state : Ctx × List Nat}
    (counted : Counted engine w state)
    (call : Call w) :
    Counted engine w (step engine state call) := by
  cases call with
  | check => exact counted
  | update needed =>
    have bounded : state.1.scansize ≤ engine.maxscansize := counted.size ▸ counted.bounded
    by_cases passes : Passes engine state.1 needed
    · rw [step_update bounded state.2 needed passes]
      obtain ⟨isFile, isSum, isSmall⟩ := passes
      rw [counted.files] at isFile
      rw [counted.size] at isSum
      have small : needed.val + state.2.sum ≤
          (state.2.length + 1) * min engine.maxfilesize (2 ^ w - 1) := by
        have := counted.small
        rw [Nat.succ_mul]
        omega
      have few : (state.2.length + 1) * _ ≤ _ :=
        Nat.mul_le_mul_right (min engine.maxfilesize (2 ^ w - 1)) isFile
      refine ⟨?_, by rw [sum_cons]; omega, by rw [counted.files, length_cons], isFile, small⟩
      rw [counted.size, sum_cons, Nat.add_comm, Nat.mod_eq_of_lt]
      rcases fits with fits | fits <;> omega
    · rw [step_rejected bounded state.2 needed passes]
      exact counted

/-- So do all calls. -/
theorem counted_run
    (fits : Fits engine w)
    (calls : List (Call w)) :
    Counted engine w (run engine calls) := by
  induction calls using reverseRecOn with
  | nil => exact ⟨rfl, Nat.zero_le _, rfl, Nat.zero_le _, Nat.zero_le _⟩
  | append_singleton calls call counted =>
    rw [run, foldl_append, foldl_cons, foldl_nil]
    exact counted.step fits call

/-- Every sum that the limits allow in `files` files is reached. -/
theorem exists_run
    (large : 2 ^ w ≤ engine.maxscansize)
    (files : Nat) :
    ∀ total ≤ 2 ^ w,
      files ≤ engine.maxfiles → total ≤ files * min engine.maxfilesize (2 ^ w - 1) →
      ∃ calls : List (Call w), ∃ accepted : List Nat, accepted.sum = total ∧
        run engine calls = (⟨total % 2 ^ w, files⟩, accepted) := by
  induction files with
  | zero =>
    intro total _ _ isTotal
    obtain rfl : total = 0 := by omega
    exact ⟨[], [], rfl, by rw [Nat.zero_mod]; rfl⟩
  | succ files hypothesis =>
    intro total inside isFiles isTotal
    rw [Nat.succ_mul] at isTotal
    -- the last file takes as much of the sum as a file may
    obtain ⟨last, isLast⟩ : ∃ last, last = min total (min engine.maxfilesize (2 ^ w - 1)) := ⟨_,
      rfl⟩
    obtain ⟨calls, accepted, isSum, isRun⟩ :=
      hypothesis (total - last) (by omega) (by omega) (by omega)
    have isMod := Nat.mod_le (total - last) (2 ^ w)
    have isSize : last < 2 ^ w := by have := Nat.two_pow_pos w; omega
    refine ⟨calls ++ [.update ⟨last, isSize⟩], last :: accepted, by rw [sum_cons]; omega, ?_⟩
    have passes : Passes engine ⟨(total - last) % 2 ^ w, files⟩ last :=
      ⟨isFiles, show (total - last) % 2 ^ w + last ≤ engine.maxscansize by omega, by omega⟩
    rw [run, foldl_append, foldl_cons, foldl_nil, ← run, isRun,
      step_update (by show _ % _ ≤ _; omega) _ _ passes]
    rw [Nat.mod_add_mod, Nat.sub_add_cancel (by omega)]

/-- The counters are right exactly if no sum passes `2 ^ w`. -/
theorem limits_account_iff
    (engine : Engine)
    (w : Nat) :
    Accounts engine w ↔ Fits engine w := by
  constructor
  · rintro ⟨-, counts⟩
    rw [Fits, or_iff_not_imp_left, Nat.not_lt]
    intro large
    by_contra enough
    obtain ⟨calls, accepted, isSum, isRun⟩ :=
      exists_run large engine.maxfiles (2 ^ w) le_rfl le_rfl (Nat.not_lt.mp enough)
    have isCount := (counts calls).2.1
    rw [isRun, isSum, Nat.mod_self] at isCount
    exact absurd isCount (Nat.two_pow_pos w).ne
  · intro fits
    refine ⟨fun ctx needed rejects => ?_, fun calls => ?_⟩
    · rw [cliUpdatelimits] at rejects ⊢
      split_ifs at rejects ⊢
      · rfl
      · exact absurd rfl rejects
    · obtain ⟨size, bounded, files, few, -⟩ := counted_run fits calls
      exact ⟨size ▸ bounded, size, files ▸ few⟩

/-- Two files of 2 GiB under limits that a 32-bit sum does not hold. -/
theorem large_sizes_wrap_around :
    let engine : Engine := ⟨⟨2 ^ 33, 2 ^ 31, 10⟩, by decide, by decide, by decide⟩
    run (w := 32) engine [.update 2147483648, .update 2147483648] =
      (⟨0, 2⟩, [2147483648, 2147483648]) := by
  decide

end LibClamav.Limits
