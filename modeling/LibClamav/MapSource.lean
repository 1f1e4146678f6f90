import LibClamav.HashtabSource

namespace LibClamav.Hashtab

/-!
# Maps with values

The `cli_map` functions of `hashtab.c`: a hash table from the bytes of a key to
the number of its value, and the array of the values.  The values are all of one
size, or each is allocated with a size of its own.
-/

/-- `CL_EARG` -/
def clEarg : Int := 3

/-- `CL_EMEM` -/
def clEmem : Int := 21

/-- An entry of `sized_values` or `unsized_values`; `value` is NULL or points to some bytes. -/
structure MapValue where
  value : Option (List UInt8)
  valuesize : Int
  deriving DecidableEq

/-- `struct cli_map`; `nvalues` is the length of `values`. -/
structure Map where
  htab : Hashtable Int
  values : List MapValue
  keysize : Int
  valuesize : Int
  lastInsert : Int
  lastFind : Int

/-- The outcomes of the allocations of `cli_map_addkey`. -/
structure MapMemory extends Memory where
  /-- the array of the values, one entry larger -/
  values : Bool

/-- `cli_map_init` -/
def cliMapInit (keysize valuesize capacity : Int) : Except Int Map :=
  if keysize ≤ 0 ∨ valuesize < 0 ∨ capacity ≤ 0 then
    .error (-clEarg)
  else
    .ok
      { htab := cliHashtabInit 16
        values := []
        keysize := keysize
        valuesize := valuesize
        lastInsert := -1
        lastFind := -1 }

/-- `el->data` of the element that `cli_hashtab_find` returns. -/
def Map.findData (m : Map) (key : List UInt8) : Option Int :=
  (cliHashtabFind m.htab key).bind m.htab.data?

/-- The zeroed entry for a new key. -/
def freshValue (valuesize : Int) : MapValue :=
  if valuesize = 0 then
    { value := none, valuesize := 0 }
  else
    { value := some (List.replicate valuesize.toNat 0), valuesize := 0 }

/-- `cli_map_addkey`; `none` as long as `cli_hashtab_insert` has not returned. -/
def cliMapAddkey
    (memory : MapMemory)
    (fuel : Nat)
    (m : Map)
    (key : List UInt8) :
    Option (Map × Int) :=
  if m.keysize ≠ key.length then
    some (m, -clEarg)
  else
    match m.findData key with
    | some data => some ({ m with lastInsert := data }, 0)
    | none =>
      if memory.values = false then
        some (m, -clEmem)
      else
        match cliHashtabInsert memory.toMemory fuel m.htab key m.values.length with
        | none => none
        | some (htab, none) =>
          some ({ m with htab, values := m.values ++ [freshValue m.valuesize] }, -clEmem)
        | some (htab, some _) =>
          some ({ m with
            htab
            values := m.values ++ [freshValue m.valuesize]
            lastInsert := m.values.length }, 1)

/-- A value number that is within the array. -/
def Map.valid
    (m : Map)
    (number : Int) :
    Bool := 0 ≤ number && number < m.values.length

/-- Change the entry of a value number. -/
def Map.modify (m : Map) (number : Int) (change : MapValue → MapValue) : Map :=
  { m with values := m.values.modify number.toNat change }

/-- `cli_map_removekey` -/
def cliMapRemovekey (m : Map) (key : List UInt8) : Map × Int :=
  if m.keysize ≠ key.length then
    (m, -clEarg)
  else
    match m.findData key with
    | none => (m, 0)
    | some data =>
      if m.valid data then
        ({ m.modify data (fun _ => freshValue m.valuesize) with
          htab := cliHashtabDelete m.htab key }, 1)
      else
        (m, -clEarg)

/-- `cli_map_setvalue`.  `cli_malloc` returns NULL for a size of 0. -/
def cliMapSetvalue (allocated : Bool) (m : Map) (value : List UInt8) : Map × Int :=
  if m.valuesize ≠ 0 ∧ m.valuesize ≠ value.length ∨ m.valid m.lastInsert = false then
    (m, -clEarg)
  else if m.valuesize ≠ 0 then
    (m.modify m.lastInsert (fun entry => { entry with value := some value }), 0)
  else if allocated = true ∧ value ≠ [] then
    (m.modify m.lastInsert (fun _ => { value := some value, valuesize := value.length }), 0)
  else
    (m.modify m.lastInsert (fun entry => { entry with value := none }), -clEmem)

/-- `cli_map_find` -/
def cliMapFind (m : Map) (key : List UInt8) : Map × Int :=
  if m.keysize ≠ key.length then
    (m, -clEarg)
  else
    match m.findData key with
    | none => (m, 0)
    | some data => ({ m with lastFind := data }, 1)

/-- `cli_map_getvalue` -/
def cliMapGetvalue (m : Map) : Option (List UInt8) :=
  if m.valid m.lastFind then
    (m.values[m.lastFind.toNat]?).bind MapValue.value
  else
    none

end LibClamav.Hashtab
