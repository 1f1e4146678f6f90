import LibClamav.BytecodeInstSource

namespace LibClamav.Bytecode

/-!
# The loader of bytecode files

`cli_bytecode_load`: the header, the sections before the functions, and the state
machine over the rows of the file.
-/

/-- The bytes of a string, each of two nibbles. -/
def dataBytes : List UInt8 → List UInt8
  | low :: high :: rest =>
    ((low &&& (0x0f : UInt8)) ||| ((high &&& (0x0f : UInt8)) <<< (4 : UInt8))) :: dataBytes rest
  | _ => []

/-- `readData` -/
def readData (text : List UInt8) : Except Status (List UInt8 × List UInt8) :=
  match text with
  | 0x7c :: text => do
      let (l, text) ← readNumber text
      let l := l % 2 ^ 32
      if cliMaxAllocation < l ∨ text.length < 2 * l then
        .error .emalfdb
      else if (text.take (2 * l)).all isNibble then
        return (dataBytes (text.take (2 * l)), text.drop (2 * l))
      else
        .error .emalfdb
  | _ => .error .emalfdb

/-- `readString`: the data must end with its terminator, if there is any. -/
def readString (text : List UInt8) : Except Status (List UInt8 × List UInt8) := do
  let (data, text) ← readData text
  if data.getLast?.getD 0 = 0 then
    return (data, text)
  else
    .error .emalfdb

/-- `isspace` -/
def isSpace (c : UInt8) : Bool := c = 0x20 ∨ 0x09 ≤ c ∧ c ≤ 0x0d

def isDigit (c : UInt8) : Bool := 0x30 ≤ c ∧ c ≤ 0x39

def decimal (digits : List UInt8) : Nat := digits.foldl (fun n c => 10 * n + (c.toNat - 0x30)) 0

/-- `strtol` over a whole text, in the bits of an `unsigned`. -/
def strtolAll (text : List UInt8) : Except Status Nat :=
  let signed := text.dropWhile isSpace
  let sign := signed.head? = some 0x2d
  let digits := if sign ∨ signed.head? = some 0x2b then signed.tail else signed
  if digits = [] ∧ text ≠ [] ∨ ¬ digits.all isDigit then
    .error .emalfdb
  else
    let n := min (decimal digits) (2 ^ 63 - 1)
    .ok (if sign then (2 ^ 64 - n) % 2 ^ 32 else n % 2 ^ 32)

/-- What the loader keeps of the header. -/
structure Header where
  numTypes : Nat
  numFunc : Nat
  linelength : Nat
  deriving Repr, DecidableEq

/-- `cl_retflevel` -/
def clRetflevel : Nat := 53

/-- `BC_HEADER` -/
def bcHeader : List UInt8 := [0x43, 0x6c, 0x61, 0x6d, 0x42, 0x43]

/-- `parseHeader` -/
def parseHeader (text : List UInt8) : Except Status Header := do
  if text.take 6 ≠ bcHeader then
    .error .emalfdb
  else
    let (formatlevel, text) ← readNumber (text.drop 6)
    if formatlevel % 2 ^ 32 ≠ 6 ∧ formatlevel % 2 ^ 32 ≠ 7 then
      .error .ebreak
    else
      let (_timestamp, text) ← readNumber text
      let (_sigmaker, text) ← readString text
      let (_targetExclude, text) ← readNumber text
      let (_kind, text) ← readNumber text
      let (minfunc, text) ← readNumber text
      let (maxfunc, text) ← readNumber text
      let minfunc := minfunc % 2 ^ 32
      let maxfunc := maxfunc % 2 ^ 32
      if minfunc ≠ 0 ∧ clRetflevel < minfunc ∨ maxfunc ≠ 0 ∧ maxfunc < clRetflevel then
        .error .ebreak
      else
        let (_maxresource, text) ← readNumber text
        let (_compiler, text) ← readString text
        let (numTypes, text) ← readNumber text
        let (numFunc, text) ← readNumber text
        let (magic1, text) ← readNumber text
        let (magic2, text) ← readFixedNumber text 2
        if magic1 ≠ 0x53e5493e9f3d1c30 ∨ magic2 ≠ 42 then
          .error .emalfdb
        else
          match text with
          | 0x3a :: text =>
            let linelength ← strtolAll text
            return ⟨numTypes % 2 ^ 32, numFunc % 2 ^ 32, linelength⟩
          | _ => .error .emalfdb

/--
The tables of API calls: their number, their names, and what `types_equal` answers
for a type and a call after the pairs that were compared before.
-/
structure Apis where
  maxapi : Nat
  name : Nat → List UInt8
  typesEqual : TypeTable → List (Nat × Nat) → Nat → Nat → Bool

/-- The calls of `parseApis`: the identifiers that are used, counted from 0. -/
def readApis
    (apis : Apis)
    (table : TypeTable)
    (maxapi : Nat) :
    Nat → List (Nat × Nat) → List UInt8 → Except Status (List Nat)
  | 0, _, _ => .ok []
  | calls + 1, compared, text => do
      let (id, text) ← readNumber text
      let id := id % 2 ^ 32
      let (tid, text) ← readTypeID table text
      let (name, text) ← readString text
      if maxapi < id then
        .error .emalfdb
      else
        let id := (id + (2 ^ 32 - 1)) % 2 ^ 32
        if name ≠ [] ∧ name.takeWhile (· ≠ 0) ≠ apis.name id then
          .error .emalfdb
        else if apis.typesEqual table compared tid id then do
          let ids ← readApis apis table maxapi calls (compared ++ [(tid, id)]) text
          return id :: ids
        else
          .error .emalfdb

/-- `parseApis` -/
def parseApis
    (apis : Apis)
    (table : TypeTable)
    (text : List UInt8) :
    Except Status (List Nat) :=
  match text with
  | 0x45 :: text => do
      let (maxapi, text) ← readNumber text
      let maxapi := maxapi % 2 ^ 32
      if apis.maxapi < maxapi then
        .error .ebreak
      else
        let (calls, text) ← readNumber text
        let calls := calls % 2 ^ 32
        if maxapi < calls then
          .error .emalfdb
        else
          readApis apis table maxapi calls [] text
  | _ => .error .emalfdb

/-- The components of a constant, up to the byte 0x60 that ends them. -/
def readComponents : Nat → List UInt8 → Except Status (List Nat × List UInt8)
  | 0, text =>
    match text with
    | 0x60 :: text => .ok ([], text)
    | _ => .error .emalfdb
  | comp + 1, text =>
    match text with
    | [] => .error .emalfdb
    | p :: rest =>
      if p = 0x60 then
        .error .emalfdb
      else do
        let (v, text) ← readNumber ((p ||| 0x20) :: rest)
        let (components, text) ← readComponents comp text
        return (v :: components, text)

/-- `readConstant` -/
def readConstant
    (comp : Nat)
    (text : List UInt8) :
    Except Status (List Nat × List UInt8) :=
  match text with
  | 0x40 :: 0x60 :: text => .ok (List.replicate comp 0, text)
  | text => readComponents comp text

/-- `globaltys` and `globals`, one pair for each global. -/
abbrev Globals := List (Nat × List Nat)

/-- More recursion than this does not end: some type then contains itself. -/
def componentsFuel (table : TypeTable) : Nat := table.entries.length + 2

def readGlobals
    (outside : Outside)
    (table : TypeTable) :
    Nat → List UInt8 → Except Status (Globals × List UInt8)
  | 0, text => .ok ([], text)
  | count + 1, text => do
      let (ty, text) ← readTypeID table text
      let (comp, ok) :=
        match typeComponents table (componentsFuel table) ty with
        | .ok components => components
        | .error .outside => outside.typeComponents ty
        | .error .deeper => (0, false)
      if ¬ ok then
        .error .emalfdb
      else if comp = 0 then
        .error .emem
      else
        let (components, text) ← readConstant comp text
        let (globals, text) ← readGlobals outside table count text
        return ((ty, components) :: globals, text)

/-- `cli_apicall_maxglobal` -/
def cliApicallMaxglobal : Nat := 0x8005

/-- `parseGlobals` -/
def parseGlobals
    (outside : Outside)
    (table : TypeTable)
    (text : List UInt8) :
    Except Status Globals :=
  match text with
  | 0x47 :: text => do
      let (maxglobal, text) ← readNumber text
      if cliApicallMaxglobal < maxglobal % 2 ^ 32 then
        .error .ebreak
      else
        let (numglobals, text) ← readNumber text
        let (globals, text) ← readGlobals outside table (numglobals % 2 ^ 32) text
        if text = [] then
          return globals
        else
          .error .emalfdb
  | _ => .error .emalfdb

/-- The elements of a debug node. -/
def skipElements : Nat → List UInt8 → Except Status (List UInt8)
  | 0, text => .ok text
  | count + 1, text =>
    match text with
    | 0x7c :: _ => do
        let (_, text) ← readData text
        skipElements count text
    | _ => do
        let (_, text) ← readNumber text
        let (_, text) ← readNumber text
        skipElements count text

def skipNodes : Nat → List UInt8 → Except Status (List UInt8)
  | 0, text => .ok text
  | count + 1, text => do
      let (el, text) ← readNumber text
      let text ← skipElements (el % 2 ^ 32) text
      skipNodes count text

/-- `parseMD`: `dbgnode_cnt` after it; the nodes are for debugging only. -/
def parseMD (dbgnodeCnt : Nat) (text : List UInt8) : Except Status Nat :=
  match text with
  | 0x44 :: text => do
      let (numMD, text) ← readNumber text
      let count := (dbgnodeCnt + numMD) % 2 ^ 32
      if count = 0 ∨ cliMaxAllocation < count * 16 then
        .error .emem
      else
        let _ ← skipNodes (numMD % 2 ^ 32) text
        return count
  | _ => .error .emalfdb

/-- The types of the values of a function, the flag of a variable in the highest bit. -/
def readValueTypes : Nat → List UInt8 → Except Status (List Nat × List UInt8)
  | 0, text => .ok ([], text)
  | count + 1, text => do
      let (type, text) ← readNumber text
      let (isAlloca, text) ← readFixedNumber text 1
      let type := if isAlloca = 0 then type % 2 ^ 16 else type % 2 ^ 15 + 0x8000
      let (types, text) ← readValueTypes count text
      return (type :: types, text)

/-- `parseFunctionHeader`, for a function that was declared. -/
def parseFunctionHeader
    (table : TypeTable)
    (text : List UInt8) :
    Except Status Func :=
  match text with
  | 0x41 :: text => do
      let (numArgs, text) ← readFixedNumber text 1
      let (_returnType, text) ← readTypeID table text
      match text with
      | 0x4c :: text =>
        let (numLocals, text) ← readNumber text
        let (types, text) ← readValueTypes (numArgs + numLocals % 2 ^ 16) text
        match text with
        | 0x46 :: text =>
          let (numInsts, text) ← readNumber text
          let (numBB, _) ← readNumber text
          return {
            numArgs := numArgs
            types := types
            numInsts := numInsts % 2 ^ 32
            numBB := numBB % 2 ^ 16
            constants := []
            insts := []
            blocks := []
            numBytes := 0 }
        | _ => .error .emalfdb
      | _ => .error .emalfdb
  | _ => .error .emalfdb

section

/-- `bc_loaded` or `bc_skip` -/
inductive LoadedState where
  | loaded
  | skip
  deriving Repr, DecidableEq

/-- `struct cli_bc`, as far as it is prepared and executed. -/
structure CliBc where
  state : LoadedState
  table : TypeTable
  usesApis : List Nat
  globals : Globals
  dbgnodeCnt : Nat
  numFunc : Nat
  funcs : List Func
  deriving Repr, DecidableEq

/-- `num_globals` -/
def CliBc.numGlobals (bc : CliBc) : Nat := bc.globals.length

/-- `enum parse_state`, with the function whose basic blocks are read. -/
inductive ParseState where
  | lsig
  | types
  | apis
  | globals
  | mdOptHeader
  | funcHeader
  | bb (func : Func)

/-- What a row does to the loading. -/
inductive RowResult where
  | next (state : ParseState) (bc : CliBc)
  | finished (bc : CliBc)
  | skipped (bc : CliBc)

variable (outside : Outside) (apis : Apis)

/-- A section that may ask to skip the whole file. -/
def orSkip
    {α : Type}
    (bc : CliBc)
    (parsed : Except Status α)
    (continue_ : α → RowResult) :
    Except Status RowResult :=
  match parsed with
  | .ok a => .ok (continue_ a)
  | .error .ebreak => .ok (.skipped { bc with state := .skip })
  | .error status => .error status

/-- `PARSE_FUNC_HEADER` -/
def loadFunctionRow (bc : CliBc) (row : List UInt8) : Except Status RowResult :=
  if row.head? = some 0x53 then
    .ok (.finished bc)
  else if bc.numFunc ≤ bc.funcs.length then
    .error .emalfdb
  else do
    let func ← parseFunctionHeader bc.table row
    return .next (.bb func) bc

/-- `PARSE_BB` -/
def loadBlockRow
    (bc : CliBc)
    (func : Func)
    (row : List UInt8) :
    Except Status RowResult := do
  let func ← parseBB outside ⟨bc.numFunc, bc.usesApis, bc.funcs.length, func⟩ row
  if func.blocks.length < func.numBB then
    return .next (.bb func) bc
  else if func.insts.length ≠ func.numInsts then
    .error .emalfdb
  else
    return .next .funcHeader { bc with funcs := bc.funcs ++ [func] }

/-- One row of the loop of `cli_bytecode_load`; `parseLSig` accepts every row. -/
def loadRow
    (state : ParseState)
    (bc : CliBc)
    (row : List UInt8) :
    Except Status RowResult :=
  match state with
  | .lsig => .ok (.next .types bc)
  | .types => do
      let table ← parseTypes outside bc.table.numTypes row
      return .next .apis { bc with table := table }
  | .apis => orSkip bc (parseApis apis bc.table row) fun usesApis =>
    .next .globals { bc with usesApis := usesApis }
  | .globals => orSkip bc (parseGlobals outside bc.table row) fun globals =>
    .next .mdOptHeader { bc with globals := globals }
  | .mdOptHeader =>
    if row.head? = some 0x44 then do
      let dbgnodeCnt ← parseMD bc.dbgnodeCnt row
      return .next .mdOptHeader { bc with dbgnodeCnt := dbgnodeCnt }
    else
      loadFunctionRow bc row
  | .funcHeader => loadFunctionRow bc row
  | .bb func => loadBlockRow outside bc func row

/-- Behind the loop all declared functions must be there. -/
def loadEnd (bc : CliBc) : Except Status CliBc :=
  if bc.funcs.length = bc.numFunc then .ok bc else .error .emalfdb

/-- The loop of `cli_bytecode_load`. -/
def loadRows : ParseState → CliBc → List (List UInt8) → Except Status CliBc
  | _, bc, [] => loadEnd bc
  | state, bc, row :: rows => do
      match ← loadRow outside apis state bc row with
      | .next state bc => loadRows state bc rows
      | .finished bc => loadEnd bc
      | .skipped bc => return bc

/--
What `cli_dbgets` and `cli_chomp` give: the first row, and the others for the
length of a line that the header declares.
-/
structure RowSource where
  first : Option (List UInt8)
  others : Nat → List (List UInt8)

/-- An empty `struct cli_bc` with what the header declares. -/
def startBytecode (numTypes numFunc : Nat) : CliBc where
  state := .loaded
  table := ⟨numTypes, 0, []⟩
  usesApis := []
  globals := []
  dbgnodeCnt := 0
  numFunc := numFunc
  funcs := []

/-- `cli_bytecode_load` -/
def cliBytecodeLoad (source : RowSource) : Except Status CliBc :=
  match source.first with
  | none => .error .emalfdb
  | some row =>
    match parseHeader row with
    | .error .ebreak => .ok { startBytecode 0 0 with state := .skip }
    | .error status => .error status
    | .ok header =>
      if header.linelength = 0 ∨ cliMaxAllocation < header.linelength then
        .error .emem
      else
        loadRows outside apis .lsig (startBytecode header.numTypes header.numFunc)
          (source.others header.linelength)

end

/-- `cli_chomp`, of a text that ends at its first zero. -/
def chompRow (bytes : List UInt8) : List UInt8 :=
  ((bytes.takeWhile (· ≠ 0)).reverse.dropWhile fun c => c = 0x0a ∨ c = 0x0d).reverse

/-- Rows of at most `room` bytes by `fgets`, `left` of them not yet in the first row. -/
def fgetsRows (room : Nat) : Nat → List UInt8 → List UInt8 → List (List UInt8)
  | _, row, [] => if row = [] then [] else [row]
  | left, row, c :: rest =>
    if c = 0x0a ∨ left ≤ 1 then
      (row ++ [c]) :: fgetsRows room room [] rest
    else
      fgetsRows room (left - 1) (row ++ [c]) rest

/--
The rows of a file read with `fgets`.  With no room but for the terminator all rows
are empty, and the second of them is rejected.
-/
def rowsOf (size : Nat) (bytes : List UInt8) : List (List UInt8) :=
  if size ≤ 1 then [[], []] else fgetsRows (size - 1) (size - 1) [] bytes

/-- `FILEBUFF` -/
def fileBuff : Nat := 8192

/-- The rows of the file with these bytes. -/
def RowSource.ofFile (bytes : List UInt8) : RowSource where
  first := ((rowsOf fileBuff bytes).head?).map chompRow
  others linelength :=
    let firstRow := ((rowsOf fileBuff bytes).head?).getD []
    (rowsOf linelength (bytes.drop firstRow.length)).map chompRow

end LibClamav.Bytecode
