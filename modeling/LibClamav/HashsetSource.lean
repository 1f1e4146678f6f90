import LibClamav.MapSource

namespace LibClamav.Hashtab

/-!
# Sets of 32-bit keys

The `cli_hashset` functions of `hashtab.c`: an open-addressed table of keys with
one bit per slot that says whether the slot is in use.
-/

/-- `struct cli_hashset`; `bitmap` has one bit per slot. -/
structure Hashset where
  keys : Nat → UInt32
  bitmap : Nat → Bool
  capacity : Nat
  mask : Nat
  count : Nat
  limit : Nat

/-- `cli_hashset_init`, when its allocations succeed -/
def cliHashsetInit (initialCapacity loadFactor : Nat) : Hashset :=
  let loadFactor := if loadFactor < 50 ∨ loadFactor > 99 then 80 else loadFactor
  let initialCapacity := nearestPower initialCapacity
  { keys := fun _ => 0
    bitmap := fun _ => false
    capacity := initialCapacity
    mask := initialCapacity - 1
    count := 0
    limit := initialCapacity * loadFactor / 100 }

/-- The loop of `cli_hashset_search`, with the number of tries that are left. -/
def searchLoop (hs : Hashset) (key : UInt32) : Nat → Nat → Nat → Option Nat
  | 0, _, _ => none
  | left + 1, idx, tries =>
    if hs.bitmap idx = true ∧ hs.keys idx ≠ key then
      searchLoop hs key left ((idx + tries) &&& hs.mask) (tries + 1)
    else
      some idx

/-- `cli_hashset_search`; `none` when every slot was tried, so that the loop does not end. -/
def cliHashsetSearch (hs : Hashset) (key : UInt32) : Option Nat :=
  searchLoop hs key hs.capacity ((hash32shift key).toNat &&& hs.mask) 1

/-- `cli_hashset_addkey_internal` -/
def cliHashsetAddkeyInternal (hs : Hashset) (key : UInt32) : Option Hashset :=
  match cliHashsetSearch hs key with
  | none => none
  | some idx =>
    if hs.bitmap idx then
      some hs
    else
      some { hs with
        bitmap := Function.update hs.bitmap idx true
        keys := Function.update hs.keys idx key
        count := hs.count + 1 }

/-- `cli_hashset_grow`.  The new set is initialised with the load factor that the old limit
amounts to.  Without memory `CL_EMEM` is not taken for an error, as it is positive, and the
copy writes to NULL: then there is no result. -/
def cliHashsetGrow (allocated : Bool) (hs : Hashset) : Option Hashset :=
  if allocated then
    (List.range hs.capacity).foldlM
      (fun grown i =>
        if hs.bitmap i then cliHashsetAddkeyInternal grown (hs.keys i) else some grown)
      (cliHashsetInit (hs.capacity * 2) (hs.limit * 100 / hs.capacity))
  else
    none

/-- `cli_hashset_addkey` -/
def cliHashsetAddkey
    (allocated : Bool)
    (hs : Hashset)
    (key : UInt32) :
    Option (Hashset × Int) :=
  match if hs.count + 1 > hs.limit then cliHashsetGrow allocated hs else some hs with
  | none => none
  | some hs =>
    match cliHashsetAddkeyInternal hs key with
    | none => none
    | some added => some (added, 0)

/-- `cli_hashset_removekey` -/
def cliHashsetRemovekey (hs : Hashset) (key : UInt32) : Option (Hashset × Int) :=
  match cliHashsetSearch hs key with
  | none => none
  | some idx =>
    if hs.bitmap idx then
      some ({ hs with
        bitmap := Function.update hs.bitmap idx false
        keys := Function.update hs.keys idx 0
        count := hs.count - 1 }, 0)
    else
      some (hs, -1)

/-- `cli_hashset_contains` -/
def cliHashsetContains (hs : Hashset) (key : UInt32) : Option Bool :=
  match cliHashsetSearch hs key with
  | none => none
  | some idx => some (hs.bitmap idx)

/-- The loop of `cli_hashset_toarray`, with the slots that are left. -/
def toarrayLoop (hs : Hashset) : List Nat → Nat → List UInt32
  | [], _ => []
  | i :: rest, j =>
    if j < hs.count then
      if hs.bitmap i then hs.keys i :: toarrayLoop hs rest (j + 1) else toarrayLoop hs rest j
    else
      []

/-- `cli_hashset_toarray`: what it returns, and the array.  `cli_malloc` refuses 0 bytes. -/
def cliHashsetToarray (allocated : Bool) (hs : Hashset) : Int × List UInt32 :=
  if hs.count = 0 ∨ allocated = false then
    (clEmem, [])
  else
    let arr := toarrayLoop hs (List.range hs.capacity) 0
    (arr.length, arr)

end LibClamav.Hashtab
