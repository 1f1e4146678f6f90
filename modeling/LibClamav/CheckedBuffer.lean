import Mathlib.Data.List.Basic
import Mathlib.Data.List.TakeDrop

namespace CheckedBuffer

open List

/-!
# Buffers with checked accesses

A buffer is the list of its cells.  Every access returns nothing if it touches a
cell outside the buffer, so that a computation over a buffer has a result
exactly if all its accesses are inside.
-/

variable {α : Type}

/-- `buf[i]` -/
def read (buf : List α) (i : Nat) : Option α := buf[i]?

/-- `buf[i] = v` -/
def write (buf : List α) (i : Nat) (v : α) : Option (List α) :=
  if i < buf.length then
    some (buf.set i v)
  else
    none

/-- `memmove(buf + dst, buf + src, n)` -/
def move (buf : List α) (dst src n : Nat) : Option (List α) :=
  if n = 0 ∨ (dst + n ≤ buf.length ∧ src + n ≤ buf.length) then
    some (buf.take dst ++ ((buf.drop src).take n ++ buf.drop (dst + n)))
  else
    none

/-- The first cell from `i` on at which a search stops. -/
def find (stop : α → Bool) (buf : List α) (i : Nat) : Option Nat :=
  ((buf.drop i).findIdx? stop).map (i + ·)

variable {stop : α → Bool} {buf : List α} {i n : Nat} (front back : List α)

/-- A read inside the buffer. -/
theorem read_of_lt (inside : i < buf.length) : read buf i = some buf[i] :=
  getElem?_eq_getElem inside

theorem read_append_right {i : Nat} : read (front ++ back) (front.length + i) = read back i := by
  unfold read
  rw [getElem?_append_right (by omega)]
  congr 1
  omega

theorem read_first
    {front rest back : List α}
    {c : α} :
    read (front ++ c :: rest ++ back) front.length = some c := by
  rw [append_assoc]
  exact @read_append_right _ front _ 0

theorem write_of_lt
    (v : α)
    (inside : i < buf.length) :
    write buf i v = some (buf.set i v) :=
  if_pos inside

/-- A write at the start of the second part. -/
theorem write_append
    (old v : α) :
    write (front ++ old :: back) front.length v = some (front ++ v :: back) := by
  rw [write_of_lt v (by simp), set_append_right _ _ (Nat.le_refl _), Nat.sub_self, set_cons_zero]

/-- What a move inside the buffer leaves in its cells. -/
structure Moved (buf later : List α) (dst src n : Nat) : Prop where
  length : later.length = buf.length
  inside : ∀ i, dst ≤ i → i < dst + n → later[i]? = buf[src + (i - dst)]?
  outside : ∀ i, i < dst ∨ dst + n ≤ i → later[i]? = buf[i]?

/-- A move inside the buffer succeeds. -/
theorem move_of_le
    {dst src : Nat}
    (dstInside : dst + n ≤ buf.length)
    (srcInside : src + n ≤ buf.length) :
    ∃ later, move buf dst src n = some later ∧ Moved buf later dst src n := by
  refine ⟨_, if_pos (.inr ⟨dstInside, srcInside⟩), ?_, ?_, ?_⟩
  · simp only [length_append, length_take, length_drop]
    omega
  · intro i isFrom isTo
    rw [getElem?_append_right (by simp; omega), length_take,
      Nat.min_eq_left (by omega), getElem?_append_left (by simp; omega),
      getElem?_take_of_lt (by omega), getElem?_drop]
  rintro i (isBefore | isBehind)
  · rw [getElem?_append_left (by simp; omega), getElem?_take_of_lt isBefore]
  rw [getElem?_append_right (by simp; omega), length_take,
    Nat.min_eq_left (by omega), getElem?_append_right (by simp; omega),
    length_take, length_drop, Nat.min_eq_left (by omega),
    getElem?_drop]
  congr 1
  omega

variable {dst src : Nat}

/-- A move fails if it leaves the buffer. -/
theorem move_eq_none_iff : move buf dst src n = none ↔
      n ≠ 0 ∧ (buf.length < dst + n ∨ buf.length < src + n) := by
  unfold move
  split_ifs with isInside
  · simp only [false_iff]
    omega
  · simp only [true_iff]
    omega

/-- A move over a gap closes it. -/
theorem move_append
    (gap kept back : List α) :
    ∃ junk, junk.length = gap.length ∧ move (front ++ gap ++ kept ++ back) front.length
          (front.length + gap.length) kept.length =
        some (front ++ kept ++ junk ++ back) := by
  refine ⟨((gap ++ kept).drop kept.length), by simp, ?_⟩
  unfold move
  rw [if_pos (.inr ⟨by simp; omega, by simp; omega⟩)]
  have isSource : ((front ++ gap ++ kept ++ back).drop
      (front.length + gap.length)).take kept.length = kept := by
    rw [← length_append, append_assoc (front ++ gap), drop_left, take_left]
  have isFront : (front ++ gap ++ kept ++ back).take front.length = front := by
    simp only [append_assoc, take_left]
  have isBack : (front ++ gap ++ kept ++ back).drop (front.length + kept.length) =
        (gap ++ kept).drop kept.length ++ back := by
    rw [append_assoc front, append_assoc front, drop_length_add_append,
      drop_append_of_le_length (by simp)]
  rw [isSource, isFront, isBack]
  simp only [append_assoc]

theorem find_of_stop
    {i j : Nat}
    {v : α}
    (isFrom : i ≤ j)
    (isCell : buf[j]? = some v)
    (stops : stop v = true) :
    ∃ p w, find stop buf i = some p ∧ i ≤ p ∧ p ≤ j ∧ buf[p]? = some w ∧ stop w = true ∧
      ∀ q c, i ≤ q → q < p → buf[q]? = some c → stop c = false := by
  have isMember : (buf.drop i)[j - i]? = some v := by
    rw [getElem?_drop, Nat.add_sub_cancel' isFrom, isCell]
  have isSome : ((buf.drop i).findIdx? stop).isSome := by
    rw [findIdx?_isSome, any_eq_true]
    exact ⟨v, mem_of_getElem? isMember, stops⟩
  obtain ⟨k, found⟩ := Option.isSome_iff_exists.mp isSome
  obtain ⟨inside, stopsThere, before⟩ := findIdx?_eq_some_iff_getElem.mp found
  have first : k ≤ j - i := by
    by_contra later
    have isBefore : j - i < k := by omega
    obtain ⟨_, isValue⟩ := List.getElem?_eq_some_iff.mp isMember
    have := before (j - i) isBefore
    rw [isValue] at this
    exact this stops
  refine ⟨i + k, (buf.drop i)[k], ?_, by omega, by omega, ?_, stopsThere, ?_⟩
  · rw [find, found]
    rfl
  · rw [← getElem?_drop, getElem?_eq_getElem inside]
  intro q c isFrom' isTo isCell'
  have isBefore : q - i < k := by omega
  have notThere := before (q - i) isBefore
  have isCell'' : (buf.drop i)[q - i]? = some c := by
    rw [List.getElem?_drop, Nat.add_sub_cancel' isFrom', isCell']
  obtain ⟨_, isValue⟩ := List.getElem?_eq_some_iff.mp isCell''
  rw [isValue] at notThere
  exact Bool.eq_false_iff.mpr notThere

/-- The search stops at the first such cell. -/
theorem find_text
    (text back : List α)
    {last : α}
    (stops : stop last = true) :
    find stop (front ++ text ++ last :: back) front.length =
      some (front.length + (text.takeWhile (fun c => !stop c)).length) := by
  rw [find, append_assoc, drop_left]
  have finds : (text ++ last :: back).findIdx? stop =
      some (text.takeWhile (fun c => !stop c)).length := by
    induction text with
    | nil => simp [findIdx?_cons, stops]
    | cons c rest ih =>
      rw [cons_append, findIdx?_cons, ih]
      cases isStop : stop c <;> simp [isStop]
  rw [finds]
  rfl

/-- Every byte is tried. -/
instance (priority := low) decidableByte {P : UInt8 → Prop} [DecidablePred P] :
    Decidable (∀ c, P c) :=
  decidable_of_iff (∀ c : BitVec 8, P ⟨c⟩) ⟨fun all c => all c.toBitVec, fun all c => all ⟨c⟩⟩

end CheckedBuffer
