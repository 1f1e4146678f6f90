import LibClamav.Probing

namespace LibClamav.Hashtab

/-!
# Hash tables

The hash table of `hashtab.c`.  A table is the array of its elements with the
three sizes the code keeps; the keys are byte strings of a given length.  The
outcome of each allocation is an argument, and a loop that need not end has a
bound on its rounds.
-/

/-- `nearest_power`, without the wrap of `n`: no table comes near the word size. -/
def nearestPowerLoop (num : Nat) : Nat → Nat → Nat
  | 0, n => n
  | rounds + 1, n => if n < num then nearestPowerLoop num rounds (n * 2) else n

/-- The least power of two that is at least `num` and at least 64. -/
def nearestPower (num : Nat) : Nat := nearestPowerLoop num num 64

/-- `hash32shift`, on 32-bit words. -/
def hash32shift (key : UInt32) : UInt32 :=
  let key := ~~~key + (key <<< 15)
  let key := key ^^^ (key >>> 12)
  let key := key + (key <<< 2)
  let key := key ^^^ (key >>> 4)
  let key := (key + (key <<< 3)) + (key <<< 11)
  key ^^^ (key >>> 16)

/-- `hash`: all bytes of the key, mixed into the table size. -/
def hash (key : List UInt8) (size : Nat) : Nat :=
  (key.foldl (fun mixed byte => hash32shift (mixed + byte.toUInt32)) 1).toNat &&& (size - 1)

/-- `strncpy` of a key into a buffer of its length: cut at the first NUL, then NUL padded. -/
def strncpy : List UInt8 → List UInt8
  | [] => []
  | byte :: rest => if byte = 0 then byte :: rest.map (fun _ => 0) else byte :: strncpy rest

/-- `strncmp(key, stored, len) == 0` for two strings of `len` bytes. -/
def strncmpEq : List UInt8 → List UInt8 → Bool
  | [], _ => true
  | byte :: _, [] => byte == 0
  | byte :: rest, other :: others => byte == other && (byte == 0 || strncmpEq rest others)

/-- `struct cli_element`: `key` is NULL, `DELETED_KEY`, or a copy of a key with its length. -/
inductive Element (δ : Type) where
  | empty
  | deleted
  | full (key : List UInt8) (data : δ)

/-- `struct cli_hashtable` -/
structure Hashtable (δ : Type) where
  htable : Nat → Element δ
  capacity : Nat
  used : Nat
  maxfill : Nat

variable {δ : Type}

/-- `cli_hashtab_init`, when its allocation succeeds -/
def cliHashtabInit (capacity : Nat) : Hashtable δ :=
  { htable := fun _ => .empty
    capacity := nearestPower capacity
    used := 0
    maxfill := 8 * nearestPower capacity / 10 }

/-- The comparison of `cli_hashtab_find` and `cli_hashtab_insert`. -/
def sameKey (key stored : List UInt8) : Bool := key.length == stored.length && strncmpEq key stored

/-- The loop of `cli_hashtab_find`, with the number of tries that are left. -/
def findLoop (s : Hashtable δ) (key : List UInt8) : Nat → Nat → Nat → Option Nat
  | 0, _, _ => none
  | left + 1, idx, tries =>
    match s.htable idx with
    | .empty => none
    | .deleted => findLoop s key left ((idx + tries) &&& (s.capacity - 1)) (tries + 1)
    | .full stored _ =>
      if sameKey key stored then
        some idx
      else
        findLoop s key left ((idx + tries) &&& (s.capacity - 1)) (tries + 1)

/-- `cli_hashtab_find`: the index of the element, or NULL. -/
def cliHashtabFind (s : Hashtable δ) (key : List UInt8) : Option Nat :=
  findLoop s key s.capacity (hash key s.capacity) 1

/-- The data of the element that a pointer returned by the table points to. -/
def Hashtable.data? (s : Hashtable δ) (idx : Nat) : Option δ :=
  match s.htable idx with
  | .full _ data => some data
  | _ => none

/--
`while(element->key && tries <= new_capacity)` of `cli_hashtab_grow`; NULL if no
place is left.
-/
def rehashLoop
    (htable : Nat → Element δ)
    (newCapacity : Nat) :
    Nat → Nat → Nat → Option Nat
  | 0, idx, _ =>
    match htable idx with
    | .empty => some idx
    | _ => none
  | left + 1, idx, tries =>
    match htable idx with
    | .empty => some idx
    | _ => rehashLoop htable newCapacity left ((idx + tries) % newCapacity) (tries + 1)

/-- One round of the loop of `cli_hashtab_grow` over the old elements. -/
def rehashElement
    (newCapacity : Nat)
    (grown : (Nat → Element δ) × Nat) :
    Element δ → Option ((Nat → Element δ) × Nat)
  | .full key data =>
    match rehashLoop grown.1 newCapacity newCapacity (hash key newCapacity) 1 with
    | some idx => some (Function.update grown.1 idx (.full key data), grown.2 + 1)
    | none => none
  | _ => some grown

/-- `cli_hashtab_grow`; `none` is `CL_EMEM`, which leaves the table as it was. -/
def cliHashtabGrow (allocated : Bool) (s : Hashtable δ) : Option (Hashtable δ) :=
  let newCapacity := nearestPower (s.capacity + 1)
  if newCapacity = s.capacity ∨ allocated = false then
    none
  else
    match (List.range s.capacity).foldlM
        (fun grown i => rehashElement newCapacity grown (s.htable i)) (fun _ => .empty, 0) with
    | some (htable, used) =>
      some { htable, capacity := newCapacity, used, maxfill := newCapacity * 8 / 10 }
    | none => none

/-- The outcomes of the allocations of one call. -/
structure Memory where
  /-- the growths of the table, in order -/
  table : Nat → Bool
  /-- the copy of the key -/
  key : Bool

/-- How the inner loop of `cli_hashtab_insert` ends; `tries` is not set back for the next round. -/
inductive Probe where
  | place (idx : Nat)
  | update (idx : Nat)
  | exhausted (deletedElement : Option Nat) (tries : Nat)
  deriving DecidableEq

/-- The inner loop of `cli_hashtab_insert`.  A deleted element is noted and looked at again. -/
def insertProbe
    (s : Hashtable δ)
    (key : List UInt8) :
    (rounds idx tries : Nat) → (deletedElement : Option Nat) → Option Probe
  | 0, _, _, _ => none
  | rounds + 1, idx, tries, deletedElement =>
    match s.htable idx with
    | .empty => some (.place (deletedElement.getD idx))
    | .deleted =>
      if tries ≤ s.capacity then
        insertProbe s key rounds idx tries (some idx)
      else
        some (.exhausted (some idx) tries)
    | .full stored _ =>
      if sameKey key stored then
        some (.update idx)
      else if tries + 1 ≤ s.capacity then
        insertProbe s key rounds ((idx + tries) % s.capacity) (tries + 1) deletedElement
      else
        some (.exhausted deletedElement (tries + 1))

/-- The new element of `cli_hashtab_insert`. -/
def Hashtable.place
    (s : Hashtable δ)
    (idx : Nat)
    (key : List UInt8)
    (data : δ) :
    Hashtable δ :=
  { s with
    htable := Function.update s.htable idx (.full (strncpy key) data)
    used := s.used + 1 }

/-- `element->data = data` -/
def Hashtable.update (s : Hashtable δ) (idx : Nat) (data : δ) : Hashtable δ :=
  match s.htable idx with
  | .full stored _ => { s with htable := Function.update s.htable idx (.full stored data) }
  | _ => s

/--
The outer loop of `cli_hashtab_insert`.  `CL_EMEM` is positive, so that a growth that fails
leads to another round as well; `tries` and `deleted_element` go on from round to round.
-/
def insertLoop
    (memory : Memory)
    (key : List UInt8)
    (data : δ)
    (probes : Nat) :
    (rounds growths tries : Nat) → (deletedElement : Option Nat) → Hashtable δ →
      Option (Hashtable δ × Option Nat)
  | 0, _, _, _, _ => none
  | rounds + 1, growths, tries, deletedElement, s =>
    match insertProbe s key probes (hash key s.capacity) tries deletedElement with
    | none => none
    | some (.place idx) =>
      if memory.key then some (s.place idx key data, some idx) else some (s, none)
    | some (.update idx) => some (s.update idx data, some idx)
    | some (.exhausted deletedElement tries) =>
      insertLoop memory key data probes rounds (growths + 1) tries deletedElement
        ((cliHashtabGrow (memory.table growths) s).getD s)

/-- The growth at the start of `cli_hashtab_insert`, whose result is ignored. -/
def growIfFull (memory : Memory) (s : Hashtable δ) : Hashtable δ :=
  if s.used > s.maxfill then (cliHashtabGrow (memory.table 0) s).getD s else s

/-- `cli_hashtab_insert`: the table and the index of the element, or NULL.  `none` means that
the loops have not ended after `fuel` rounds. -/
def cliHashtabInsert
    (memory : Memory)
    (fuel : Nat)
    (s : Hashtable δ)
    (key : List UInt8)
    (data : δ) :
    Option (Hashtable δ × Option Nat) :=
  insertLoop memory key data fuel fuel 1 1 none (growIfFull memory s)

/-- `cli_hashtab_delete` -/
def cliHashtabDelete (s : Hashtable δ) (key : List UInt8) : Hashtable δ :=
  match cliHashtabFind s key with
  | some idx => { s with htable := Function.update s.htable idx .deleted }
  | none => s

/-- `cli_hashtab_clear`.  `memset` gets the number of the elements for a number of bytes, so that
the elements behind it keep their pointers; `freed` is what the memory of a freed key holds. -/
def cliHashtabClear
    (sizeofElement : Nat)
    (freed : List UInt8 → List UInt8)
    (s : Hashtable δ) :
    Hashtable δ :=
  { s with
    htable := fun i =>
      if s.capacity ≤ sizeofElement * i ∧ i < s.capacity then
        match s.htable i with
        | .full key data => .full (freed key) data
        | element => element
      else
        .empty
    used := 0 }

end LibClamav.Hashtab
