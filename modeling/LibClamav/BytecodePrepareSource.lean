import LibClamav.BytecodeLoadSource

namespace LibClamav.Bytecode

/-!
# Preparation of bytecode for the interpreter

`cli_bytecode_prepare_interpreter`: the places of globals and values, the contents
of the globals, and the remapping of the operands by `MAP` and `MAPPTR`.
-/

section

/-- `(n + align - 1) & ~(align - 1)` -/
def alignUp (n align : UInt32) : UInt32 := (n + align - 1) &&& ~~~(align - 1)

variable (outside : Outside) (table : TypeTable)

/-- The size of a type in 32 bits. -/
def sizeOfType (type : Nat) : UInt32 :=
  UInt32.ofNat ((typesize table type).getD (outside.typesize type))

/-- The alignment of a type in 32 bits. -/
def alignOfType (type : Nat) : UInt32 :=
  UInt32.ofNat ((typealign table type).getD (outside.typealign type))

/-- The places of values of some types behind `numBytes`, and the bytes they take. -/
def placeValues : List Nat → UInt32 → List Nat × UInt32
  | [], numBytes => ([], numBytes)
  | type :: types, numBytes =>
    let place := alignUp numBytes (alignOfType outside table type)
    let (places, numBytes) := placeValues types (place + sizeOfType outside table type)
    (place.toNat :: places, numBytes)

/-- The places of the constants, eight bytes for each. -/
def placeConstants : Nat → UInt32 → List Nat × UInt32
  | 0, numBytes => ([], numBytes)
  | count + 1, numBytes =>
    let (places, bytes) := placeConstants count (numBytes + 8)
    (numBytes.toNat :: places, bytes)

/-- `map` as far as it is set, and `numBytes`. -/
def placeFunction (func : Func) : List Nat × UInt32 :=
  let (values, numBytes) := placeValues outside table func.types 0
  let (constants, numBytes) := placeConstants func.constants.length (alignUp numBytes 8)
  (values ++ constants, numBytes)

end

section

/-- The bytes of a number, the lowest first. -/
def littleEndian : Nat → Nat → List UInt8
  | 0, _ => []
  | count + 1, n => UInt8.ofNat n :: littleEndian count (n / 256)

/-- Bytes written over others from an offset on. -/
def overwrite (bytes : List UInt8) : Nat → List UInt8 → List UInt8
  | _, [] => bytes
  | off, c :: rest => overwrite (bytes.set off c) (off + 1) rest

/-- `ptr_compose` -/
def ptrCompose (id offset : Nat) : Nat := id % 2 ^ 32 * 2 ^ 32 + offset % 2 ^ 32

/-- `_FIRST_GLOBAL` -/
def firstGlobal : Nat := 0x8000

/-- `cli_apicall_maxglobal - _FIRST_GLOBAL + 2` -/
def bcglobalid : Nat := cliApicallMaxglobal - firstGlobal + 2

variable (outside : Outside) (bc : CliBc) (gmap : List Nat)

/-- The pointer that the two components of a global make, if it is stored. -/
def globalPointer (components : List Nat) : Option Nat :=
  let offset := components.getD 0 0
  let target := components.getD 1 0
  if firstGlobal ≤ target then
    some (ptrCompose (target - firstGlobal + 1) offset)
  else if bc.numGlobals < target then
    none
  else
    some (ptrCompose bcglobalid (gmap.getD target (outside.globalMap 0 0 target) + offset))

/-- The elements of a global array; other sizes than those of integers are not stored. -/
def globalArray (size numElements : Nat) (components : List Nat) : List UInt8 :=
  if size = 1 ∨ size = 2 ∨ size = 4 ∨ size = 8 then
    ((List.range numElements).map fun i => littleEndian size (components.getD i 0)).flatten
  else
    []

/-- What the initializer of a global stores. -/
def globalBytesOf (type : Nat) (components : List Nat) : List UInt8 :=
  if type < 65 then
    []
  else
    match bc.table.entry? type with
    | some ⟨.pointerType, _, _, _, _⟩ =>
      ((globalPointer outside bc gmap components).map (littleEndian 8)).getD []
    | some ⟨.arrayType, contained, numElements, _, _⟩ =>
      globalArray (sizeOfType outside bc.table (contained.getD 0 0)).toNat numElements components
    | _ => []

/-- `globalBytes` -/
def initGlobals (numGlobalBytes : Nat) : List UInt8 := (bc.globals.zip gmap).foldl
    (fun bytes ((type, components), place) =>
      overwrite bytes place (globalBytesOf outside bc gmap type components))
    (List.replicate numGlobalBytes 0)

end

section

/-- `cli_malloc` succeeds. -/
def allocates (size : Nat) : Bool := 0 < size ∧ size ≤ cliMaxAllocation

/-- `totValues` -/
def totValues (bc : CliBc) (func : Func) : Nat :=
  func.numValues + func.constants.length + bc.numGlobals

/-- What the remapping of one function reads. -/
structure Remap where
  bc : CliBc
  funcNumber : Nat
  func : Func
  gmap : List Nat
  map : List Nat

variable (outside : Outside) (remap : Remap) (j : Nat)

/-- `map[o]` -/
def Remap.value (o : Nat) : Nat := remap.map.getD o (outside.valueMap remap.funcNumber j o)

/-- `gmap[o]` -/
def Remap.global (o : Nat) : Nat := remap.gmap.getD o (outside.globalMap remap.funcNumber j o)

/-- `bcfunc->types[o]` -/
def Remap.type (o : Nat) : Nat := remap.func.types.getD o (outside.valueType remap.funcNumber j o)

/-- `MAP` -/
def Remap.mapOperand (val : Nat) : Except Status Nat :=
  if 0x80000000 ≤ val then
    let o := val - 0x80000000
    if remap.bc.numGlobals < o then
      .error .ebytecode
    else
      .ok (globalOperand (remap.global outside j o))
  else if totValues remap.bc remap.func < val then
    .error .ebytecode
  else
    .ok (remap.value outside j val)

/-- `type & 0x8000` -/
def isAlloca (type : Nat) : Bool := type.testBit 15

/-- `MAPPTR` -/
def Remap.mapPointer (val : Nat) : Except Status Nat :=
  if val < remap.func.numValues ∧ isAlloca (remap.type outside j val) then
    .ok (remap.value outside j val ||| 0x40000000)
  else
    remap.mapOperand outside j val

def Remap.mapPointers : List Nat → Except Status (List Nat)
  | [] => .ok []
  | val :: vals => do
      let op ← remap.mapPointer outside j val
      let ops ← mapPointers vals
      return op :: ops

/-- `three[1]` of a GEP is a global or a variable. -/
def Remap.isPlace (base : Nat) : Bool := 0x80000000 ≤ base ∨ isAlloca (remap.type outside j base)

/-- `get_geptypesize`, of the lower 16 bits; nothing for -1. -/
def getGeptypesize (table : TypeTable) (three0 : Nat) : Option Nat := do
  let tid := three0 % 2 ^ 16
  if (table.numTypes + 65) % 2 ^ 32 ≤ tid ∨ tid ≤ 64 then
    none
  else
    let entry ← table.entry? tid
    if entry.kind = .pointerType then
      let size := (sizeOfType outside table (entry.containedTypes.getD 0 0)).toNat
      if size = 2 ^ 32 - 1 then none else some size
    else
      none

/-- The number of arguments of a callee and their sizes in 16 bits. -/
def Remap.opsizes
    (target : Func)
    (count : Nat) :
    List Nat := (List.range count).map fun k =>
    (sizeOfType outside remap.bc.table (target.types.getD k 0)).toNat % 2 ^ 16

/-- The switch over the opcodes, and `interp_op % 5` behind it. -/
def Remap.prepareBody (width : Nat) (body : Body) : Except Status (Nat × Body) :=
  let map := remap.mapOperand outside j
  let mapPtr := remap.mapPointer outside j
  match body with
  | .bin op left right => do return (width, .bin op (← map left) (← map right))
  | .icmp op left right => do return (width, .icmp op (← map left) (← map right))
  | .copy source target => do return (width, .copy (← map source) (← map target))
  | .store value pointer => do return (width, .store (← map value) (← map pointer))
  | .cast op source bits size => do return (width, .cast op (← map source) bits size)
  | .branch condition brTrue brFalse => do
      return (width, .branch (← map condition) brTrue brFalse)
  | .jmp jump => .ok (width, .jmp jump)
  | .ret value => do return (width, .ret (← map value))
  | .select condition first second => do
      return (width, .select (← map condition) (← map first) (← map second))
  | .callDirect funcid ops _ =>
    match remap.bc.funcs[funcid]? with
    | none => .error .ebytecode
    | some target =>
      if ops.length ≠ target.numArgs then
        .error .ebytecode
      else do
        let mapped ← remap.mapPointers outside j ops
        return (width, .callDirect funcid mapped (remap.opsizes outside target ops.length))
  | .callApi funcid ops _ =>
    if 5 < ops.length then
      .error .ebytecode
    else do
      let mapped ← remap.mapPointers outside j ops
      return (width, .callApi funcid mapped (List.replicate ops.length 32))
  | .load pointer => do return (width, .load (← mapPtr pointer))
  | .gep1 tid base offset =>
    if remap.isPlace outside j base then
      .error .ebytecode
    else do
      let base ← map base
      let offset ← map offset
      match getGeptypesize outside remap.bc.table tid with
      | none => .error .ebytecode
      | some size => return (width, .gep1 size base offset)
  | .gepz tid base offset => do
      let width := if remap.isPlace outside j base then 0 else 3
      return (width, .gepz tid (← map base) (← map offset))
  | .gepn tid ops => .ok (width, .gepn tid ops)
  | .mem op first second count => do
      return (width, .mem op (← mapPtr first) (← mapPtr second) (← map count))
  | .retVoid => .ok (width, .retVoid)
  | .isBigEndian => .ok (width, .isBigEndian)
  | .abort => .ok (width, .abort)
  | .bswap op value => do return (width, .bswap op (← map value))
  | .ptrdiff32 left right => do return (width, .ptrdiff32 (← mapPtr left) (← mapPtr right))
  | .ptrtoint64 pointer => do return (width, .ptrtoint64 (← mapPtr pointer))
  | .unnamed => .error .ebytecode

/-- One turn of the loop over the instructions. -/
def Remap.prepareInst (inst : Inst) : Except Status Inst := do
  let (width, body) ← remap.prepareBody outside j inst.width inst.body
  return ⟨inst.type, remap.value outside j inst.dest, width, body⟩

end

variable (outside : Outside)

def Remap.prepareInsts (remap : Remap) : Nat → List Inst → Except Status (List Inst)
  | _, [] => .ok []
  | j, inst :: insts => do
      let prepared ← remap.prepareInst outside j inst
      let others ← prepareInsts remap (j + 1) insts
      return prepared :: others

/-- One turn of the loop over the functions. -/
def prepareFunc
    (bc : CliBc)
    (gmap : List Nat)
    (i : Nat)
    (func : Func) :
    Except Status Func :=
  if allocates (4 * totValues bc func) then do
    let (map, numBytes) := placeFunction outside bc.table func
    let insts ← Remap.prepareInsts outside ⟨bc, i, func, gmap, map⟩ 0 func.insts
    return { func with insts := insts, numBytes := numBytes.toNat }
  else
    .error .emem

def prepareFuncs
    (bc : CliBc)
    (gmap : List Nat) :
    Nat → List Func → Except Status (List Func)
  | _, [] => .ok []
  | i, func :: funcs => do
      let prepared ← prepareFunc outside bc gmap i func
      let others ← prepareFuncs bc gmap (i + 1) funcs
      return prepared :: others

/-- A prepared bytecode: its functions, `numGlobalBytes` and `globalBytes`. -/
structure Prepared where
  bc : CliBc
  globalBytes : List UInt8
  deriving Repr, DecidableEq

/-- `cli_bytecode_prepare_interpreter` -/
def cliBytecodePrepareInterpreter (bc : CliBc) : Except Status Prepared :=
  if allocates (8 * bc.numGlobals) then do
    let (gmap, numGlobalBytes) := placeValues outside bc.table (bc.globals.map Prod.fst) 0
    if cliMaxAllocation < numGlobalBytes.toNat then
      .error .emem
    else
      let funcs ← prepareFuncs outside bc gmap 0 bc.funcs
      return ⟨{ bc with funcs := funcs }, initGlobals outside bc gmap numGlobalBytes.toNat⟩
  else
    .error .emem

end LibClamav.Bytecode
