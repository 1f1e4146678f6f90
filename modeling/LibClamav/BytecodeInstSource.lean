import LibClamav.BytecodeTypesSource

namespace LibClamav.Bytecode

/-!
# Instructions of bytecode files

`readOperand`, `readBBID`, `readFuncID` and the body of `parseBB`: how the operands
of each opcode are read, and how constants join the values of their function.
-/

/-- `OP_BC_ADD` to `OP_BC_XOR` -/
inductive BinOp where
  | add
  | sub
  | mul
  | udiv
  | sdiv
  | urem
  | srem
  | shl
  | lshr
  | ashr
  | and
  | or
  | xor
  deriving Repr, DecidableEq

/-- `OP_BC_TRUNC` to `OP_BC_ZEXT` -/
inductive CastOp where
  | trunc
  | sext
  | zext
  deriving Repr, DecidableEq

/-- `OP_BC_ICMP_EQ` to `OP_BC_ICMP_SLT` -/
inductive IcmpOp where
  | eq
  | ne
  | ugt
  | uge
  | ult
  | ule
  | sgt
  | sge
  | sle
  | slt
  deriving Repr, DecidableEq

/-- `OP_BC_MEMSET` to `OP_BC_MEMCMP` -/
inductive MemOp where
  | memset
  | memcpy
  | memmove
  | memcmp
  deriving Repr, DecidableEq

/-- `OP_BC_BSWAP16` to `OP_BC_BSWAP64` -/
inductive SwapOp where
  | bswap16
  | bswap32
  | bswap64
  deriving Repr, DecidableEq

/-- `enum bc_opcode`; `unnamed` is the opcode 0. -/
inductive Opcode where
  | unnamed
  | bin (op : BinOp)
  | cast (op : CastOp)
  | branch
  | jmp
  | ret
  | retVoid
  | icmp (op : IcmpOp)
  | select
  | callDirect
  | callApi
  | copy
  | gep1
  | gepz
  | gepn
  | store
  | load
  | mem (op : MemOp)
  | isBigEndian
  | abort
  | bswap (op : SwapOp)
  | ptrdiff32
  | ptrtoint64
  deriving Repr, DecidableEq

/-- The opcodes in the order of their numbers, up to `OP_BC_INVALID`. -/
def opcodes : List Opcode :=
  [.unnamed, .bin .add, .bin .sub, .bin .mul, .bin .udiv, .bin .sdiv, .bin .urem, .bin .srem,
    .bin .shl, .bin .lshr, .bin .ashr, .bin .and, .bin .or, .bin .xor,
    .cast .trunc, .cast .sext, .cast .zext,
    .branch, .jmp, .ret, .retVoid,
    .icmp .eq, .icmp .ne, .icmp .ugt, .icmp .uge, .icmp .ult, .icmp .ule,
    .icmp .sgt, .icmp .sge, .icmp .sle, .icmp .slt,
    .select, .callDirect, .callApi, .copy, .gep1, .gepz, .gepn, .store, .load,
    .mem .memset, .mem .memcpy, .mem .memmove, .mem .memcmp,
    .isBigEndian, .abort, .bswap .bswap16, .bswap .bswap32, .bswap .bswap64,
    .ptrdiff32, .ptrtoint64]

/--
An opcode with its operands, the union `u` of an instruction.  `bits` of a cast is
`cast.mask` as `OP_BC_SEXT` uses it, the mask of the others is not used.
-/
inductive Body where
  | unnamed
  | bin (op : BinOp) (left right : Nat)
  | cast (op : CastOp) (source bits size : Nat)
  | branch (condition brTrue brFalse : Nat)
  | jmp (jump : Nat)
  | ret (value : Nat)
  | retVoid
  | icmp (op : IcmpOp) (left right : Nat)
  | select (condition first second : Nat)
  | callDirect (funcid : Nat) (ops opsizes : List Nat)
  | callApi (funcid : Nat) (ops opsizes : List Nat)
  | copy (source target : Nat)
  | gep1 (type base offset : Nat)
  | gepz (type base offset : Nat)
  | gepn (type : Nat) (ops : List Nat)
  | store (value pointer : Nat)
  | load (pointer : Nat)
  | mem (op : MemOp) (first second count : Nat)
  | isBigEndian
  | abort
  | bswap (op : SwapOp) (value : Nat)
  | ptrdiff32 (left right : Nat)
  | ptrtoint64 (pointer : Nat)
  deriving Repr, DecidableEq

/-- `struct cli_bc_inst`; `width` is `interp_op % 5`. -/
structure Inst where
  type : Nat
  dest : Nat
  width : Nat
  body : Body
  deriving Repr, DecidableEq

/-- What is added to `opcode * 5` for a type. -/
def interpWidth (type : Nat) : Nat :=
  if type ≤ 1 then 0
  else if type ≤ 8 then 1
  else if type ≤ 16 then 2
  else if type ≤ 32 then 3
  else if type ≤ 65 then 4
  else 0

/-- `cast.size`, where a type of more than 64 bits leaves it as it was. -/
def castSize (bits unset : Nat) : Nat :=
  if bits = 1 then 0
  else if bits ≤ 8 then 1
  else if bits ≤ 16 then 2
  else if bits ≤ 32 then 3
  else if bits ≤ 64 then 4
  else unset

/-- `struct cli_bc_bb`: where its instructions begin in `allinsts`, and their number. -/
structure Block where
  start : Nat
  numInsts : Nat
  deriving Repr, DecidableEq

/-- `struct cli_bc_func`; `types` has `numValues` elements, and `numBytes` is set later. -/
structure Func where
  numArgs : Nat
  types : List Nat
  numInsts : Nat
  numBB : Nat
  constants : List Nat
  insts : List Inst
  blocks : List Block
  numBytes : Nat
  deriving Repr, DecidableEq

/-- `numValues` -/
def Func.numValues (func : Func) : Nat := func.types.length

/-- `get_optype` -/
def getOptype (types : List Nat) (op : Nat) : Nat := types.getD op 0 % 0x8000

/-- `CLI_MAX_ALLOCATION` -/
def cliMaxAllocation : Nat := 184549376

/-- `0x80000000 | v` in 32 bits -/
def globalOperand (v : Nat) : Nat := 0x80000000 + v % 0x80000000

/-- How much of a constant is stored for its type. -/
def storedConstant (ty v : Nat) : Nat :=
  if ty ≤ 8 then v % 2 ^ 8
  else if ty ≤ 16 then v % 2 ^ 16
  else if ty ≤ 32 then v % 2 ^ 32
  else v

/-- `readOperand`: the operand, the constants after it and the rest of the line. -/
def readOperand
    (numValues : Nat)
    (constants : List Nat)
    (text : List UInt8) :
    Except Status (Nat × List Nat × List UInt8) :=
  match text with
  | [] => .error .emalfdb
  | p :: rest =>
    if p &&& 0xf0 = 0x40 ∨ p = 0x50 then
      if cliMaxAllocation < (constants.length + 1) * 8 then
        .error .emalfdb
      else do
        let (v, text) ← readNumber ((p ||| 0x20) :: rest)
        let (ty, text) ← readFixedNumber text 1
        if ty = 0 then
          return (globalOperand v, constants, text)
        else
          return (numValues + constants.length, constants ++ [storedConstant (8 * ty) v], text)
    else do
      let (v, text) ← readNumber (p :: rest)
      if numValues ≤ v then
        .error .emalfdb
      else
        return (v, constants, text)

def readOperands
    (numValues : Nat) :
    Nat → List Nat → List UInt8 → Except Status (List Nat × List Nat × List UInt8)
  | 0, constants, text => .ok ([], constants, text)
  | count + 1, constants, text => do
      let (op, constants, text) ← readOperand numValues constants text
      let (ops, constants, text) ← readOperands numValues count constants text
      return (op :: ops, constants, text)

/-- `readBBID` -/
def readBBID
    (numBB : Nat)
    (text : List UInt8) :
    Except Status (Nat × List UInt8) := do
  let (n, text) ← readNumber text
  let id := n % 2 ^ 32
  if id = 0 ∨ numBB ≤ id then
    .error .emalfdb
  else
    return (id, text)

/-- A number less one in the 16 bits of `funcid_t`. -/
def funcIdOf (n : Nat) : Nat := (n + 0xffff) % 0x10000

/-- `readFuncID` -/
def readFuncID
    (numFunc : Nat)
    (text : List UInt8) :
    Except Status (Nat × List UInt8) := do
  let (n, text) ← readNumber text
  if numFunc ≤ funcIdOf n then
    .error .emalfdb
  else
    return (funcIdOf n, text)

/-- `readAPIFuncID` -/
def readAPIFuncID
    (usesApis : List Nat)
    (text : List UInt8) :
    Except Status (Nat × List UInt8) := do
  let (n, text) ← readNumber text
  if funcIdOf n ∈ usesApis then
    return (funcIdOf n, text)
  else
    .error .emalfdb

/-- `operand_counts`, where `parseBB` uses it. -/
def operandCount : Opcode → Nat
  | .bin _ | .icmp _ | .copy | .store | .ptrdiff32 => 2
  | .select | .mem _ => 3
  | .load | .bswap _ | .ptrtoint64 => 1
  | _ => 0

/-- An opcode of the default branch with as many operands as it has. -/
def Opcode.withOperands : Opcode → List Nat → Except Status Body
  | .unnamed, [] => .ok .unnamed
  | .bin op, [left, right] => .ok (.bin op left right)
  | .retVoid, [] => .ok .retVoid
  | .icmp op, [left, right] => .ok (.icmp op left right)
  | .select, [condition, first, second] => .ok (.select condition first second)
  | .copy, [source, target] => .ok (.copy source target)
  | .store, [value, pointer] => .ok (.store value pointer)
  | .load, [pointer] => .ok (.load pointer)
  | .mem op, [first, second, count] => .ok (.mem op first second count)
  | .isBigEndian, [] => .ok .isBigEndian
  | .abort, [] => .ok .abort
  | .bswap op, [value] => .ok (.bswap op value)
  | .ptrdiff32, [left, right] => .ok (.ptrdiff32 left right)
  | .ptrtoint64, [pointer] => .ok (.ptrtoint64 pointer)
  | _, _ => .error .emalfdb

/-- What an instruction is read from: the function so far, its number and the callees. -/
structure BlockContext where
  numFunc : Nat
  usesApis : List Nat
  funcNumber : Nat
  func : Func

variable (outside : Outside) (context : BlockContext)

/--
The operands of an opcode: the type of the instruction, which some opcodes read
again, the body, the constants after it and the rest of the line.
-/
def readBody
    (op : Opcode)
    (type : Nat)
    (constants : List Nat)
    (instNumber : Nat)
    (text : List UInt8) :
    Except Status (Nat × Body × List Nat × List UInt8) :=
  let numValues := context.func.numValues
  let numBB := context.func.numBB
  match op with
  | .jmp => do
      let (jump, text) ← readBBID numBB text
      return (type, .jmp jump, constants, text)
  | .ret => do
      let (type, text) ← readNumber text
      let (value, constants, text) ← readOperand numValues constants text
      return (type % 2 ^ 16, .ret value, constants, text)
  | .branch => do
      let (condition, constants, text) ← readOperand numValues constants text
      let (brTrue, text) ← readBBID numBB text
      let (brFalse, text) ← readBBID numBB text
      return (type, .branch condition brTrue brFalse, constants, text)
  | .callApi => do
      let (numOp, text) ← readFixedNumber text 1
      let (funcid, text) ← readAPIFuncID context.usesApis text
      let (ops, constants, text) ← readOperands numValues numOp constants text
      return (type, .callApi funcid ops [], constants, text)
  | .callDirect => do
      let (numOp, text) ← readFixedNumber text 1
      let (funcid, text) ← readFuncID context.numFunc text
      let (ops, constants, text) ← readOperands numValues numOp constants text
      return (type, .callDirect funcid ops [], constants, text)
  | .cast op => do
      let (source, constants, text) ← readOperand numValues constants text
      let bits := context.func.types.getD source
        (outside.valueType context.funcNumber instNumber source)
      let size := castSize bits (outside.castSize context.funcNumber instNumber)
      return (type, .cast op source bits size, constants, text)
  | .gep1 => do
      let (tid, text) ← readNumber text
      let (base, constants, text) ← readOperand numValues constants text
      let (offset, constants, text) ← readOperand numValues constants text
      return (type, .gep1 (tid % 2 ^ 32) base offset, constants, text)
  | .gepz => do
      let (tid, text) ← readNumber text
      let (base, constants, text) ← readOperand numValues constants text
      let (offset, constants, text) ← readOperand numValues constants text
      return (type, .gepz (tid % 2 ^ 32) base offset, constants, text)
  | .gepn => do
      let (numOp, text) ← readFixedNumber text 1
      let (tid, text) ← readNumber text
      let (ops, constants, text) ← readOperands numValues (numOp + 1) constants text
      return (type, .gepn (tid % 2 ^ 32) ops, constants, text)
  | .icmp op => do
      let (type, text) ← readNumber text
      let (ops, constants, text) ← readOperands numValues 2 constants text
      let body ← (Opcode.icmp op).withOperands ops
      return (type % 2 ^ 16, body, constants, text)
  | op => do
      let (ops, constants, text) ← readOperands numValues (operandCount op) constants text
      let body ← op.withOperands ops
      return (type, body, constants, text)

/-- The types that `OP_BC_STORE` and `OP_BC_COPY` get from their operands. -/
def bodyType (types : List Nat) (body : Body) (type : Nat) : Nat :=
  match body with
  | .store value _ => if getOptype types value = 0 then type else getOptype types value
  | .copy _ target => getOptype types target
  | _ => type

/-- Whether the instruction is the last, its type, its destination and its opcode. -/
def readHead (text : List UInt8) : Except Status ((Bool × Nat × Nat) × Opcode × List UInt8) := do
  let (head, text) ← show Except Status ((Bool × Nat × Nat) × List UInt8) from
    match text with
    | 0x54 :: text => .ok ((true, 0, 0), text)
    | _ => do
        let (type, text) ← readNumber text
        let (dest, text) ← readNumber text
        return ((false, type % 2 ^ 16, dest % 2 ^ 32), text)
  let (number, text) ← readFixedNumber text 2
  match opcodes[number]? with
  | none => .error .emalfdb
  | some op => return (head, op, text)

/-- One turn of the loop of `parseBB`. -/
def readInst
    (constants : List Nat)
    (instNumber : Nat)
    (text : List UInt8) :
    Except Status ((Bool × Inst) × List Nat × List UInt8) := do
  let ((last, type, dest), op, text) ← readHead text
  let (type, body, constants, text) ← readBody outside context op type constants instNumber text
  if context.func.numInsts ≤ instNumber then
    .error .emalfdb
  else
    let type := bodyType context.func.types body type
    return ((last, ⟨type, dest, interpWidth type, body⟩), constants, text)

/-- The loop of `parseBB`.  Each turn reads something, so the line's length is fuel enough. -/
def readInsts : Nat → List Inst → List Nat → List UInt8 →
    Except Status (List Inst × List Nat × List UInt8)
  | 0, _, _, _ => .error .emalfdb
  | fuel + 1, insts, constants, text => do
      let ((last, inst), constants, text) ←
        readInst outside context constants insts.length text
      if last then
        return (insts ++ [inst], constants, text)
      else
        readInsts fuel (insts ++ [inst]) constants text

/-- So many numbers. -/
def skipNumbers : Nat → List UInt8 → Except Status (List UInt8)
  | 0, text => .ok text
  | count + 1, text => do
      let (_, text) ← readNumber text
      skipNumbers count text

/-- The debug nodes behind a basic block. -/
def skipDebugNodes
    (numInsts : Nat)
    (text : List UInt8) :
    Except Status (List UInt8) :=
  match text with
  | 0x44 :: _ =>
    if text.length ≤ 3 then
      .error .emalfdb
    else do
      let (num, text) ← readNumber (text.drop 3)
      if num % 2 ^ 32 ≠ numInsts then
        .error .emalfdb
      else if numInsts = 0 ∨ cliMaxAllocation < numInsts * 4 then
        .error .emem
      else
        skipNumbers numInsts text
  | _ => .ok text

/-- The mark behind the last basic block. -/
def skipLastMark (isLast : Bool) (text : List UInt8) : Except Status (List UInt8) :=
  if isLast then
    match text with
    | 0x45 :: text => .ok text
    | _ => .error .emalfdb
  else
    .ok text

/-- `parseBB`: the function with its next basic block. -/
def parseBB (text : List UInt8) : Except Status Func := do
  let func := context.func
  if func.numBB ≤ func.blocks.length then
    .error .emalfdb
  else
    match text with
    | 0x42 :: text =>
      let (insts, constants, text) ←
        readInsts outside context text.length func.insts func.constants text
      let text ← skipLastMark (func.blocks.length + 1 = func.numBB) text
      let text ← skipDebugNodes func.numInsts text
      if text = [] then
        return { func with
          constants := constants
          insts := insts
          blocks := func.blocks ++ [⟨func.insts.length, insts.length - func.insts.length⟩] }
      else
        .error .emalfdb
    | _ => .error .emalfdb

end LibClamav.Bytecode
