import Mathlib.Data.List.Basic
import Mathlib.Algebra.Group.Int.Defs
import Mathlib.Algebra.Ring.Nat

namespace LibClamav.Bytecode

/-!
# Numbers and types of bytecode files

`readNumber`, `readFixedNumber`, `readTypeID`, `parseTypes` and the functions that
look types up.  A line is the list of its bytes that are not read yet.  Reads that
fail leave `ok` cleared until the line is rejected; here they reject it at once.
-/

/-- What a parser of bytecode returns instead of `CL_SUCCESS`. -/
inductive Status where
  | emalfdb
  | emem
  | ebreak
  | ebytecode
  deriving Repr, DecidableEq

/-- `(v & 0xf0) == 0x60` -/
def isNibble (v : UInt8) : Bool := v &&& 0xf0 == 0x60

/-- The number of some nibbles, the lowest first. -/
def nibbles : List UInt8 → Nat
  | [] => 0
  | v :: rest => (v &&& 0x0f).toNat + 16 * nibbles rest

/-- A number of as many nibbles: the number and the rest of the line. -/
def readNibbles
    (count : Nat)
    (text : List UInt8) :
    Except Status (Nat × List UInt8) :=
  if text.length < count then
    .error .emalfdb
  else if (text.take count).all isNibble then
    .ok (nibbles (text.take count), text.drop count)
  else
    .error .emalfdb

/-- `readNumber` -/
def readNumber : List UInt8 → Except Status (Nat × List UInt8)
  | [] => .error .emalfdb
  | p0 :: rest =>
    if p0 < 0x60 ∨ 0x70 < p0 then
      .error .emalfdb
    else
      readNibbles (p0.toNat - 0x60) rest

/-- `readFixedNumber` -/
def readFixedNumber
    (text : List UInt8)
    (width : Nat) :
    Except Status (Nat × List UInt8) :=
  readNibbles width text

/-- `enum derived_t` -/
inductive TypeKind where
  | functionType
  | pointerType
  | structType
  | packedStructType
  | arrayType
  deriving Repr, DecidableEq

/-- `struct cli_bc_type` -/
structure TypeEntry where
  kind : TypeKind
  containedTypes : List Nat
  numElements : Nat
  size : Nat
  align : Nat
  deriving Repr, DecidableEq

/-- `num_types`, `start_tid` and `types`, where no entry is set to begin with. -/
structure TypeTable where
  numTypes : Nat
  startTid : Nat
  entries : List (Option TypeEntry)
  deriving Repr, DecidableEq

/-- `BC_START_TID` -/
def bcStartTid : Nat := 69

/-- An entry that is not set is all zeros. -/
def zeroEntry : TypeEntry := ⟨.functionType, [], 0, 0, 0⟩

/-- `&bc->types[id - 65]`, if it is inside the array. -/
def TypeTable.entry? (table : TypeTable) (id : Nat) : Option TypeEntry :=
  (table.entries[id - 65]?).map fun entry => entry.getD zeroEntry

/-- The sizes of integers. -/
def intSize (type : Nat) : Nat :=
  if type = 0 then 0
  else if type ≤ 8 then 1
  else if type ≤ 16 then 2
  else if type ≤ 32 then 4
  else 8

/-- `typesize`; nothing if it reads outside the array. -/
def typesize (table : TypeTable) (type : Nat) : Option Nat :=
  let type := type % 0x8000
  if type ≤ 64 then
    some (intSize type)
  else
    (table.entry? type).map TypeEntry.size

/-- `typealign`; nothing if it reads outside the array. -/
def typealign (table : TypeTable) (type : Nat) : Option Nat :=
  let type := type % 0x8000
  if type ≤ 64 then
    some (if intSize type = 0 then 1 else intSize type)
  else
    (table.entry? type).map TypeEntry.align

/-- The sum of the components, and whether `ok` is still set. -/
def sumComponents (parts : List (Nat × Bool)) : Nat × Bool :=
  ((parts.map Prod.fst).sum % 65536, parts.all Prod.snd)

/-- Why a lookup gives no answer. -/
inductive Lookup where
  /-- it reads outside the array -/
  | outside
  /-- its calls are nested deeper than allowed -/
  | deeper
  deriving Repr, DecidableEq

/-- `type_components`, with its calls nested at most as deep; the source has no bound. -/
def typeComponents (table : TypeTable) : Nat → Nat → Except Lookup (Nat × Bool)
  | 0, _ => .error .deeper
  | depth + 1, id =>
    if id ≤ 64 then
      .ok (1, true)
    else
      match table.entry? id with
      | none => .error .outside
      | some entry =>
        match entry.kind with
        | .functionType => .ok (0, false)
        | .pointerType => .ok (2, true)
        | .structType | .packedStructType => do
          let parts ← entry.containedTypes.mapM (typeComponents table depth)
          return sumComponents parts
        | .arrayType =>
          match entry.containedTypes with
          | [] => .error .outside
          | contained :: _ => do
            let (count, ok) ← typeComponents table depth contained
            return (count * entry.numElements % 65536, ok)

/-- What the lookups give where they read outside the array. -/
structure Outside where
  typesize : Nat → Nat
  typealign : Nat → Nat
  typeComponents : Nat → Nat × Bool
  /-- `bcfunc->types` behind its end, by function, instruction and index -/
  valueType : Nat → Nat → Nat → Nat
  /-- `map` behind its end -/
  valueMap : Nat → Nat → Nat → Nat
  /-- `gmap` behind its end -/
  globalMap : Nat → Nat → Nat → Nat
  /-- `cast.size` of a type that has none -/
  castSize : Nat → Nat → Nat

/-- `readTypeID`; the identifier is returned in sixteen bits. -/
def readTypeID
    (table : TypeTable)
    (text : List UInt8) :
    Except Status (Nat × List UInt8) := do
  let (t, text) ← readNumber text
  if (table.numTypes + table.startTid) % 2 ^ 32 ≤ t then
    .error .emalfdb
  else
    return (t % 65536, text)

def readTypeIDs (table : TypeTable) : Nat → List UInt8 → Except Status (List Nat × List UInt8)
  | 0, text => .ok ([], text)
  | count + 1, text => do
      let (id, text) ← readTypeID table text
      let (ids, text) ← readTypeIDs table count text
      return (id :: ids, text)

/-- `parseType`: the contained types; none at all cannot be allocated. -/
def parseType
    (table : TypeTable)
    (text : List UInt8) :
    Except Status (List Nat × List UInt8) := do
  let (numElements, text) ← readNumber text
  if numElements % 2 ^ 32 = 0 then
    .error .emalfdb
  else
    readTypeIDs table (numElements % 2 ^ 32) text

/-- `containedTy` -/
def containedTy : List Nat := [8, 16, 32, 64]

/-- `NUM_STATIC_TYPES` -/
def numStaticTypes : Nat := 4

/-- `add_static_types`; what it writes outside the array is not in the table. -/
def addStaticTypes (table : TypeTable) : TypeTable where
  numTypes := table.numTypes
  startTid := table.startTid
  entries := table.entries.mapIdx fun i entry =>
    match containedTy[i]? with
    | some contained => some ⟨.pointerType, [contained], 1, 8, 8⟩
    | none => entry

variable (outside : Outside)

/-- One type of the types section. -/
def parseEntry
    (table : TypeTable)
    (text : List UInt8) :
    Except Status (TypeEntry × List UInt8) := do
  let (t, text) ← readFixedNumber text 1
  match t with
  | 1 =>
    let (contained, text) ← parseType table text
    return (⟨.functionType, contained, contained.length, 8, 8⟩, text)
  | 2 =>
    let (contained, text) ← parseType table text
    return (⟨.packedStructType, contained, contained.length, 0, 8⟩, text)
  | 3 =>
    let (contained, text) ← parseType table text
    return (⟨.structType, contained, contained.length, 0, 8⟩, text)
  | 4 =>
    let (numElements, text) ← readNumber text
    let numElements := numElements % 2 ^ 32
    let (contained, text) ← readTypeID table text
    let size := (typesize table contained).getD (outside.typesize contained)
    let align := (typealign table contained).getD (outside.typealign contained)
    return (⟨.arrayType, [contained], numElements, numElements * size % 2 ^ 32, align⟩, text)
  | 5 =>
    let (contained, text) ← readTypeID table text
    return (⟨.pointerType, [contained], 1, 8, 8⟩, text)
  | _ => .error .emalfdb

/-- The loop of `parseTypes` from entry `i` on. -/
def parseEntries : Nat → Nat → TypeTable → List UInt8 → Except Status TypeTable
  | 0, _, table, _ => .ok table
  | count + 1, i, table, text => do
      let (entry, text) ← parseEntry outside table text
      parseEntries count (i + 1) { table with entries := table.entries.set i (some entry) } text

/-- The loop ends at `num_types - 1`, which is huge if there are no types. -/
def lastEntry (numTypes : Nat) : Nat := (numTypes + (2 ^ 32 - 1)) % 2 ^ 32

/-- `parseTypes`, behind the allocation of `num_types` entries. -/
def parseTypes (numTypes : Nat) (text : List UInt8) : Except Status TypeTable := do
  match text with
  | 0x54 :: text =>
    let (startTid, text) ← readFixedNumber text 2
    if startTid ≠ bcStartTid then
      .error .ebreak
    else
      let table : TypeTable := ⟨numTypes, startTid, List.replicate numTypes none⟩
      parseEntries outside (lastEntry numTypes - (bcStartTid - 65)) (bcStartTid - 65)
        (addStaticTypes table) text
  | _ => .error .emalfdb

end LibClamav.Bytecode
