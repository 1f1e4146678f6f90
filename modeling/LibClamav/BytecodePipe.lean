import Mathlib.Algebra.Ring.Nat
import Mathlib.Data.List.Basic

namespace LibClamav.Bytecode

open List

/-!
# Buffer pipes

A call touches no pipe but the one that it names, so this follows the calls on one pipe
from `cli_bcapi_buffer_pipe_new` on.  The sums of `write_stopped` and `read_stopped` are
computed in 32 bits.
-/

/-- `struct bc_buffer`, and the bytes that went into it and that were taken out of it. -/
structure Pipe where
  data : List UInt8
  writeCursor : Nat
  readCursor : Nat
  written : List UInt8
  consumed : List UInt8

inductive PipeCall where
  /-- `stored` is then put behind the pointer -/
  | writeGet (size : UInt32) (stored : List UInt8)
  | writeStopped (size : UInt32)
  | readGet (size : UInt32)
  | readStopped (amount : UInt32)

namespace Pipe

/-- `cli_bcapi_buffer_pipe_new` -/
def new (size : UInt32) : Pipe := ⟨replicate size.toNat 0, 0, 0, [], []⟩

/-- The bytes from one position to another. -/
def between
    (b : Pipe)
    (start stop : Nat) :
    List UInt8 := (b.data.take stop).drop start

/-- Where `cli_bcapi_buffer_pipe_write_stopped` leaves its cursor. -/
def writeStop (b : Pipe) (size : UInt32) : Nat :=
  let sum := (b.writeCursor + size.toNat) % 2 ^ 32
  if b.data.length ≤ sum then b.data.length else sum

/-- Where `cli_bcapi_buffer_pipe_read_stopped` leaves its cursor. -/
def readStop (b : Pipe) (amount : UInt32) : Nat :=
  let sum := (b.readCursor + amount.toNat) % 2 ^ 32
  if b.writeCursor < sum then b.writeCursor else sum

def call (b : Pipe) : PipeCall → Pipe
  | .writeGet size stored =>
    if b.data.length - b.writeCursor < size.toNat ∨ size = 0 then
      b
    else
      let bytes := stored.take size.toNat
      { b with
        data := b.data.take b.writeCursor ++ (bytes ++ b.data.drop (b.writeCursor + bytes.length)) }
  | .writeStopped size =>
    { b with
      writeCursor := b.writeStop size
      written := b.written ++ b.between b.writeCursor (b.writeStop size) }
  -- a reader sees the bytes from the one cursor to the other
  | .readGet _ => b
  | .readStopped amount =>
    if b.writeCursor ≤ b.readCursor then
      b
    else
      let after := { b with
        readCursor := b.readStop amount
        consumed := b.consumed ++ b.between b.readCursor (b.readStop amount) }
      if b.data.length ≤ after.readCursor ∧ b.data.length ≤ b.writeCursor then
        { after with readCursor := 0, writeCursor := 0 }
      else
        after

/-- The bytes between the cursors are those that are written and not consumed. -/
structure Sound (b : Pipe) : Prop where
  ordered : b.readCursor ≤ b.writeCursor
  inside : b.writeCursor ≤ b.data.length
  inOrder : b.written = b.consumed ++ b.between b.readCursor b.writeCursor

/-- The cursors only grow, or all that was written is consumed and they are reset. -/
def MovesOn (b after : Pipe) : Prop :=
  b.readCursor ≤ after.readCursor ∧ b.writeCursor ≤ after.writeCursor ∨
    after.readCursor = 0 ∧ after.writeCursor = 0 ∧ after.consumed = b.written

/-- What is asked of the calls from a state on. -/
def Holds : List PipeCall → Pipe → Prop
  | [], b => b.Sound
  | made :: rest, b => b.Sound ∧ b.MovesOn (b.call made) ∧ Holds rest (b.call made)

/-- The sum that a call computes does not fit. -/
def Wraps (b : Pipe) : PipeCall → Prop
  | .writeStopped size => 2 ^ 32 ≤ b.writeCursor + size.toNat
  | .readStopped amount => b.readCursor < b.writeCursor ∧ 2 ^ 32 ≤ b.readCursor + amount.toNat
  | _ => False

def NeverWraps : List PipeCall → Pipe → Prop
  | [], _ => True
  | made :: rest, b => ¬ b.Wraps made ∧ NeverWraps rest (b.call made)

variable {b : Pipe} {made : PipeCall}

theorem between_append
    {start middle stop : Nat}
    (before : start ≤ middle)
    (behind : middle ≤ stop)
    (inside : middle ≤ b.data.length) :
    b.between start middle ++ b.between middle stop = b.between start stop := by
  have isTaken : b.data.take middle = (b.data.take stop).take middle := by
    rw [take_take, Nat.min_eq_left behind]
  have enough : start ≤ (b.data.take middle).length := by
    rw [length_take]
    omega
  rw [between, between, ← drop_append_of_le_length enough, isTaken, take_append_drop, between]

theorem writeStop_bounds
    (inside : b.writeCursor ≤ b.data.length)
    (size : UInt32) :
    (b.writeCursor ≤ b.writeStop size ↔ b.writeCursor + size.toNat < 2 ^ 32) ∧
      b.writeStop size ≤ b.data.length := by
  have := size.toNat_lt
  dsimp only [writeStop]
  split_ifs <;> omega

theorem readStop_bounds
    (ordered : b.readCursor ≤ b.writeCursor)
    (amount : UInt32) :
    (b.readCursor ≤ b.readStop amount ↔ b.readCursor + amount.toNat < 2 ^ 32) ∧
      b.readStop amount ≤ b.writeCursor := by
  have := amount.toNat_lt
  dsimp only [readStop]
  split_ifs <;> omega

/-- A call that does not wrap moves on. -/
theorem Sound.call
    (sound : b.Sound)
    (fits : ¬ b.Wraps made) :
    (b.call made).Sound ∧ b.MovesOn (b.call made) := by
  have stays : b.Sound ∧ b.MovesOn b := ⟨sound, .inl ⟨le_rfl, le_rfl⟩⟩
  obtain ⟨ordered, inside, inOrder⟩ := sound
  cases made with
  | writeGet size stored =>
    rw [Pipe.call]
    split_ifs with refused
    · exact stays
    · refine ⟨⟨ordered, by simp [inside], ?_⟩, .inl ⟨le_rfl, le_rfl⟩⟩
      simp [inOrder, between, inside]
  | readGet size => exact stays
  | writeStopped size =>
    obtain ⟨grows, atEnd⟩ := writeStop_bounds inside size
    have grows := grows.mpr (not_le.mp fits)
    refine ⟨⟨le_trans ordered grows, atEnd, ?_⟩, .inl ⟨le_rfl, grows⟩⟩
    show b.written ++ _ = b.consumed ++ b.between b.readCursor (b.writeStop size)
    rw [inOrder, append_assoc, between_append ordered grows inside]
  | readStopped amount =>
    rw [Pipe.call]
    by_cases empty : b.writeCursor ≤ b.readCursor
    · rw [if_pos empty]
      exact stays
    · obtain ⟨grows, atEnd⟩ := readStop_bounds ordered amount
      have grows := grows.mpr (not_le.mp fun large => fits ⟨not_le.mp empty, large⟩)
      rw [← between_append grows atEnd (le_trans atEnd inside), ← append_assoc] at inOrder
      rw [if_neg empty]
      dsimp only
      split_ifs with full
      · -- the pipe is read to its end
        have isAll : b.between (b.readStop amount) b.writeCursor = [] := by
          rw [between, drop_eq_nil_iff, length_take]
          exact le_trans (Nat.min_le_right _ _) full.1
        rw [isAll, append_nil] at inOrder
        exact ⟨⟨le_rfl, Nat.zero_le _, by simp [inOrder, between]⟩, .inr ⟨rfl, rfl, inOrder.symm⟩⟩
      · exact ⟨⟨atEnd, inside, inOrder⟩, .inl ⟨grows, le_rfl⟩⟩

/-- One that wraps does not. -/
theorem Sound.not_movesOn
    (sound : b.Sound)
    (wraps : b.Wraps made) :
    ¬ b.MovesOn (b.call made) := by
  obtain ⟨ordered, inside, inOrder⟩ := sound
  cases made with
  | writeGet | readGet => cases wraps
  | writeStopped size =>
    have less := mt (writeStop_bounds inside size).1.mp (not_lt.mpr wraps)
    rintro (⟨-, grows⟩ | ⟨isStart, -, isConsumed⟩)
    · exact less grows
    · have lengths := congrArg length inOrder
      rw [show b.consumed = b.written from isConsumed, show b.readCursor = 0 from isStart,
        length_append, between, drop_zero, length_take] at lengths
      omega
  | readStopped amount =>
    have less := mt (readStop_bounds ordered amount).1.mp (not_lt.mpr wraps.2)
    have notFull : ¬ b.data.length ≤ b.readStop amount := by omega
    rw [Pipe.call, if_neg (not_le.mpr wraps.1), if_neg fun full => notFull full.1]
    rintro (⟨grows, -⟩ | ⟨-, isStart, -⟩)
    · exact less grows
    · exact absurd wraps.1 (isStart ▸ Nat.not_lt_zero _)

/-- The pipe holds exactly if no call wraps. -/
theorem Sound.holds_iff
    (calls : List PipeCall) :
    ∀ {b : Pipe}, b.Sound → (Holds calls b ↔ NeverWraps calls b) := by
  induction calls with
  | nil => exact fun sound => iff_of_true sound trivial
  | cons made rest ih =>
    intro b sound
    by_cases wraps : b.Wraps made
    · exact iff_of_false (fun holds => sound.not_movesOn wraps holds.2.1) fun never => never.1 wraps
    · obtain ⟨after, moves⟩ := sound.call wraps
      exact ⟨fun holds => ⟨wraps, (ih after).mp holds.2.2⟩,
        fun never => ⟨sound, moves, (ih after).mpr never.2⟩⟩

/-- The calls on a pipe keep its bytes in order if and only if no sum of them is too large. -/
theorem pipe_holds_iff
    (size : UInt32)
    (calls : List PipeCall) :
    Holds calls (new size) ↔ NeverWraps calls (new size) :=
  Sound.holds_iff calls ⟨Nat.le_refl 0, Nat.zero_le _, rfl⟩

/-- The largest amount takes a written byte back. -/
theorem write_stopped_goes_back :
    let one := (new 2).call (.writeStopped 1)
    one.Sound ∧ one.writeCursor = 1 ∧ (one.call (.writeStopped 0xffffffff)).writeCursor = 0 :=
  ⟨⟨by decide, by decide, by decide⟩, rfl, rfl⟩

end Pipe

end LibClamav.Bytecode
