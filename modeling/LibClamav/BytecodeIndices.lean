import LibClamav.BytecodeTypes
import LibClamav.BytecodePrepareSource

namespace LibClamav.Bytecode

open List

/-!
# Indices of loaded bytecode

`readOperand` keeps every operand below the values and the constants that were read
so far, and the constants only grow.  `MAP` lets the number of globals itself pass,
and nothing checks destinations, so these two decide whether the remapping stays
inside its arrays.
-/

variable {more o id instNumber : Nat} {op : Opcode} {ops : List Nat} {inst : Inst} {func : Func}
  {row : List UInt8}

/-- The operands that `MAP` and `MAPPTR` remap. -/
def Body.remapped : Body → List Nat
  | .bin _ left right => [left, right]
  | .icmp _ left right => [left, right]
  | .copy source target => [source, target]
  | .store value pointer => [value, pointer]
  | .cast _ source _ _ => [source]
  | .branch condition _ _ => [condition]
  | .ret value => [value]
  | .select condition first second => [condition, first, second]
  | .callDirect _ ops _ => ops
  | .callApi _ ops _ => ops
  | .load pointer => [pointer]
  | .gep1 _ base offset => [base, offset]
  | .gepz _ base offset => [base, offset]
  | .mem _ first second count => [first, second, count]
  | .bswap _ value => [value]
  | .ptrdiff32 left right => [left, right]
  | .ptrtoint64 pointer => [pointer]
  | .unnamed | .jmp _ | .retVoid | .gepn _ _ | .isBigEndian | .abort => []

/-- The basic blocks that an instruction goes to. -/
def Body.targets : Body → List Nat
  | .branch _ brTrue brFalse => [brTrue, brFalse]
  | .jmp jump => [jump]
  | _ => []

/-- The function that an instruction calls. -/
def Body.callee : Body → Option Nat
  | .callDirect funcid _ _ => some funcid
  | _ => none

/-- An operand inside the map of values or, if it is a global, inside that of globals. -/
def OperandInside (bc : CliBc) (func : Func) (o : Nat) : Prop :=
  if 0x80000000 ≤ o then o - 0x80000000 < bc.numGlobals else o < totValues bc func

/-- All indices of an instruction are inside their arrays. -/
structure Inst.Inside (bc : CliBc) (func : Func) (inst : Inst) : Prop where
  dest : inst.dest < totValues bc func
  operands : ∀ o ∈ inst.body.remapped, OperandInside bc func o
  callee : ∀ funcid ∈ inst.body.callee, funcid < bc.numFunc
  targets : ∀ target ∈ inst.body.targets, target < func.numBB

/-- The indices of every function are inside. -/
def CliBc.IndicesInside (bc : CliBc) : Prop :=
  ∀ func ∈ bc.funcs, ∀ inst ∈ func.insts, inst.Inside bc func

/-- The destination is a value, and no remapped operand is the global behind the last. -/
structure Inst.Listed (bc : CliBc) (func : Func) (inst : Inst) : Prop where
  dest : inst.dest < totValues bc func
  globals : ∀ o ∈ inst.body.remapped, o ≠ 0x80000000 + bc.numGlobals

section

/-- An operand that was read: a global, or below the values and the constants so far. -/
def OperandRead (numValues numConstants o : Nat) : Prop :=
  0x80000000 ≤ o ∨ o < numValues + numConstants

/-- What the loader guarantees of an instruction. -/
structure Body.Read (numFunc numBB numValues numConstants : Nat) (body : Body) : Prop where
  operands : ∀ o ∈ body.remapped, OperandRead numValues numConstants o
  callee : ∀ funcid ∈ body.callee, funcid < numFunc
  targets : ∀ target ∈ body.targets, target < numBB

variable {numValues numFunc numBB : Nat} {constants constants' : List Nat} {text rest : List UInt8}

variable {numConstants : Nat}

theorem OperandRead.mono
    (isRead : OperandRead numValues numConstants o)
    (grows : numConstants ≤ more) :
    OperandRead numValues more o := by
  rcases isRead with isGlobal | isLocal
  · exact .inl isGlobal
  · exact Or.inr (Nat.lt_of_lt_of_le isLocal (Nat.add_le_add_left grows numValues))

variable {body : Body} (count : Nat)

theorem Body.Read.mono
    (isRead : body.Read numFunc numBB numValues numConstants)
    (grows : numConstants ≤ more) :
    body.Read numFunc numBB numValues more :=
  ⟨fun o isOperand => (isRead.operands o isOperand).mono grows, isRead.callee, isRead.targets⟩

/-- An operand that is read is a value, a constant or a global. -/
theorem readOperand_reads
    (reads : readOperand numValues constants text = .ok (o, constants', rest)) :
    constants.length ≤ constants'.length ∧ OperandRead numValues constants'.length o := by
  unfold readOperand at reads
  split at reads
  · cases reads
  split at reads
  · split at reads
    · cases reads
    obtain ⟨⟨v, _⟩, -, reads⟩ := bind_eq_ok_iff.mp reads
    obtain ⟨⟨ty, _⟩, -, reads⟩ := bind_eq_ok_iff.mp reads
    dsimp only at reads
    split at reads
    · cases reads
      exact ⟨le_rfl, .inl (Nat.le_add_right _ _)⟩
    · cases reads
      refine ⟨by simp, .inr ?_⟩
      simp
  · obtain ⟨⟨v, _⟩, -, reads⟩ := bind_eq_ok_iff.mp reads
    dsimp only at reads
    split at reads
    · cases reads
    rename_i isValue
    cases reads
    exact ⟨le_rfl, .inr (lt_of_lt_of_le (not_le.mp isValue) (Nat.le_add_right _ _))⟩

/-- So are all operands of an instruction. -/
theorem readOperands_reads
    {constants constants' ops : List Nat}
    {text rest : List UInt8}
    (reads : readOperands numValues count constants text = .ok (ops, constants', rest)) :
    constants.length ≤ constants'.length ∧
      ∀ o ∈ ops, OperandRead numValues constants'.length o := by
  induction count generalizing constants constants' ops text rest with
  | zero =>
    cases reads
    exact ⟨le_rfl, fun o never => by cases never⟩
  | succ count ih =>
    rw [readOperands, bind_eq_ok_iff] at reads
    obtain ⟨⟨first, middle, _⟩, readsFirst, reads⟩ := reads
    obtain ⟨⟨others, final, _⟩, readsOthers, isOk⟩ := bind_eq_ok_iff.mp reads
    cases isOk
    obtain ⟨growsFirst, isFirst⟩ := readOperand_reads readsFirst
    obtain ⟨growsOthers, areOthers⟩ := ih readsOthers
    refine ⟨le_trans growsFirst growsOthers, fun o isOperand => ?_⟩
    rcases mem_cons.mp isOperand with rfl | isOther
    · exact isFirst.mono growsOthers
    · exact areOthers o isOther

theorem readBBID_lt (reads : readBBID numBB text = .ok (id, rest)) : id < numBB := by
  obtain ⟨⟨n, _⟩, -, reads⟩ := bind_eq_ok_iff.mp reads
  dsimp only at reads
  generalize n % 2 ^ 32 = number at reads
  split at reads
  · cases reads
  · rename_i isInside
    cases reads
    exact not_le.mp fun tooLarge => isInside (.inr tooLarge)

theorem readFuncID_lt (reads : readFuncID numFunc text = .ok (id, rest)) : id < numFunc := by
  obtain ⟨⟨n, _⟩, -, reads⟩ := bind_eq_ok_iff.mp reads
  dsimp only at reads
  generalize funcIdOf n = number at reads
  split at reads
  · cases reads
  · rename_i isInside
    cases reads
    exact not_le.mp isInside

theorem withOperands_operands
    (assembles : op.withOperands ops = .ok body) :
    (∀ o ∈ body.remapped, o ∈ ops) ∧ body.callee = none ∧ body.targets = [] := by
  unfold Opcode.withOperands at assembles
  split at assembles
  case h_15 => cases assembles
  all_goals
    cases assembles
    exact ⟨fun o isOperand => isOperand, rfl, rfl⟩

theorem Body.Read.ofOperands
    (operands : ∀ o ∈ body.remapped, OperandRead numValues numConstants o)
    (noCallee : body.callee = none)
    (noTargets : body.targets = []) :
    body.Read numFunc numBB numValues numConstants :=
  ⟨operands, by simp [noCallee], by simp [noTargets]⟩

theorem withOperands_reads
    {count : Nat}
    (reads : readOperands numValues count constants text = .ok (ops, constants', rest))
    (assembles : op.withOperands ops = .ok body) :
    constants.length ≤ constants'.length ∧ body.Read numFunc numBB numValues constants'.length := by
  obtain ⟨grows, areOps⟩ := readOperands_reads _ reads
  obtain ⟨areGiven, noCallee, noTargets⟩ := withOperands_operands assembles
  exact ⟨grows, .ofOperands (fun o isOperand => areOps o (areGiven o isOperand)) noCallee noTargets⟩

end

section

variable {outside : Outside} {context : BlockContext}

/-- The body of an instruction that is read has its numbers checked. -/
theorem readBody_reads
    {type type' : Nat}
    {body : Body}
    {constants constants' : List Nat}
    {text rest : List UInt8}
    (reads : readBody outside context op type constants instNumber text =
      .ok (type', body, constants', rest)) :
    constants.length ≤ constants'.length ∧
      body.Read context.numFunc context.func.numBB context.func.numValues
        constants'.length := by
  unfold readBody at reads
  split at reads
  case h_1 =>
    obtain ⟨⟨jump, _⟩, readsJump, isOk⟩ := bind_eq_ok_iff.mp reads
    cases isOk
    refine ⟨le_rfl, by simp [Body.remapped], by simp [Body.callee], ?_⟩
    intro target isTarget
    cases mem_singleton.mp isTarget
    exact readBBID_lt readsJump
  case h_2 =>
    obtain ⟨_, -, reads⟩ := bind_eq_ok_iff.mp reads
    obtain ⟨⟨value, _, _⟩, readsValue, isOk⟩ := bind_eq_ok_iff.mp reads
    cases isOk
    obtain ⟨grows, isValue⟩ := readOperand_reads readsValue
    exact ⟨grows, .ofOperands (by simpa [Body.remapped] using isValue) rfl rfl⟩
  case h_3 =>
    obtain ⟨⟨condition, _, _⟩, readsCondition, reads⟩ := bind_eq_ok_iff.mp reads
    obtain ⟨⟨brTrue, _⟩, readsTrue, reads⟩ := bind_eq_ok_iff.mp reads
    obtain ⟨⟨brFalse, _⟩, readsFalse, isOk⟩ := bind_eq_ok_iff.mp reads
    cases isOk
    obtain ⟨grows, isCondition⟩ := readOperand_reads readsCondition
    refine ⟨grows, by simpa [Body.remapped] using isCondition, by simp [Body.callee], ?_⟩
    simpa [Body.targets] using ⟨readBBID_lt readsTrue, readBBID_lt readsFalse⟩
  case h_4 =>
    obtain ⟨_, -, reads⟩ := bind_eq_ok_iff.mp reads
    obtain ⟨_, -, reads⟩ := bind_eq_ok_iff.mp reads
    obtain ⟨⟨ops, _, _⟩, readsOps, isOk⟩ := bind_eq_ok_iff.mp reads
    cases isOk
    obtain ⟨grows, areOps⟩ := readOperands_reads _ readsOps
    exact ⟨grows, .ofOperands areOps rfl rfl⟩
  case h_5 =>
    obtain ⟨_, -, reads⟩ := bind_eq_ok_iff.mp reads
    obtain ⟨⟨funcid, _⟩, readsFunc, reads⟩ := bind_eq_ok_iff.mp reads
    obtain ⟨⟨ops, _, _⟩, readsOps, isOk⟩ := bind_eq_ok_iff.mp reads
    cases isOk
    obtain ⟨grows, areOps⟩ := readOperands_reads _ readsOps
    refine ⟨grows, areOps, ?_, by simp [Body.targets]⟩
    simpa [Body.callee] using readFuncID_lt readsFunc
  case h_6 =>
    obtain ⟨⟨source, _, _⟩, readsSource, isOk⟩ := bind_eq_ok_iff.mp reads
    cases isOk
    obtain ⟨grows, isSource⟩ := readOperand_reads readsSource
    exact ⟨grows, .ofOperands (by simpa [Body.remapped] using isSource) rfl rfl⟩
  case h_7 | h_8 =>
    obtain ⟨_, -, reads⟩ := bind_eq_ok_iff.mp reads
    obtain ⟨⟨base, _, _⟩, readsBase, reads⟩ := bind_eq_ok_iff.mp reads
    obtain ⟨⟨offset, _, _⟩, readsOffset, isOk⟩ := bind_eq_ok_iff.mp reads
    cases isOk
    obtain ⟨growsBase, isBase⟩ := readOperand_reads readsBase
    obtain ⟨growsOffset, isOffset⟩ := readOperand_reads readsOffset
    refine ⟨le_trans growsBase growsOffset, .ofOperands ?_ rfl rfl⟩
    simpa [Body.remapped] using ⟨isBase.mono growsOffset, isOffset⟩
  case h_9 =>
    obtain ⟨_, -, reads⟩ := bind_eq_ok_iff.mp reads
    obtain ⟨_, -, reads⟩ := bind_eq_ok_iff.mp reads
    obtain ⟨⟨ops, _, _⟩, readsOps, isOk⟩ := bind_eq_ok_iff.mp reads
    cases isOk
    exact ⟨(readOperands_reads _ readsOps).1, .ofOperands (by simp [Body.remapped]) rfl rfl⟩
  case h_10 =>
    obtain ⟨_, -, reads⟩ := bind_eq_ok_iff.mp reads
    obtain ⟨⟨ops, _, _⟩, readsOps, reads⟩ := bind_eq_ok_iff.mp reads
    obtain ⟨body, assembles, isOk⟩ := bind_eq_ok_iff.mp reads
    cases isOk
    exact withOperands_reads readsOps assembles
  case h_11 =>
    obtain ⟨⟨ops, _, _⟩, readsOps, reads⟩ := bind_eq_ok_iff.mp reads
    obtain ⟨body, assembles, isOk⟩ := bind_eq_ok_iff.mp reads
    cases isOk
    exact withOperands_reads readsOps assembles

/-- What the loader guarantees of all instructions of a function. -/
def InstsRead
    (numFunc numBB numValues numConstants : Nat)
    (insts : List Inst) :
    Prop :=
  ∀ inst ∈ insts, inst.body.Read numFunc numBB numValues numConstants

/-- So has the instruction. -/
theorem readInst_reads
    {last : Bool}
    {constants constants' : List Nat}
    {text rest : List UInt8}
    (reads : readInst outside context constants instNumber text =
      .ok ((last, inst), constants', rest)) :
    constants.length ≤ constants'.length ∧
      inst.body.Read context.numFunc context.func.numBB context.func.numValues
        constants'.length := by
  obtain ⟨⟨⟨_, _, _⟩, _, _⟩, -, reads⟩ := bind_eq_ok_iff.mp reads
  obtain ⟨⟨_, _, _, _⟩, readsBody, reads⟩ := bind_eq_ok_iff.mp reads
  dsimp only at reads
  split at reads
  · cases reads
  · cases reads
    exact readBody_reads readsBody

theorem InstsRead.append
    {numFunc numBB numValues numConstants : Nat}
    {insts : List Inst}
    (areRead : InstsRead numFunc numBB numValues numConstants insts)
    (grows : numConstants ≤ more)
    (isRead : inst.body.Read numFunc numBB numValues more) :
    InstsRead numFunc numBB numValues more (insts ++ [inst]) := by
  intro other isOther
  rcases mem_append.mp isOther with isEarlier | isLast
  · exact (areRead other isEarlier).mono grows
  · cases mem_singleton.mp isLast
    exact isRead

/-- So have all instructions of a block. -/
theorem readInsts_reads
    (fuel : Nat)
    {insts insts' : List Inst}
    {constants constants' : List Nat}
    {text rest : List UInt8}
    (areRead : InstsRead context.numFunc context.func.numBB context.func.numValues
      constants.length insts)
    (reads : readInsts outside context fuel insts constants text = .ok (insts', constants', rest)) :
    InstsRead context.numFunc context.func.numBB context.func.numValues
      constants'.length insts' := by
  induction fuel generalizing insts insts' constants constants' text rest with
  | zero =>
    cases reads
  | succ fuel ih =>
    rw [readInsts, bind_eq_ok_iff] at reads
    obtain ⟨⟨⟨last, inst⟩, _, _⟩, readsInst, reads⟩ := reads
    obtain ⟨grows, isRead⟩ := readInst_reads readsInst
    dsimp only at reads
    split at reads
    · cases reads
      exact areRead.append grows isRead
    · exact ih (areRead.append grows isRead) reads

/-- The instructions that a function has so far were read for it. -/
structure Func.Read (numFunc : Nat) (func : Func) : Prop where
  fewValues : func.numValues < 0x80000000
  insts : InstsRead numFunc func.numBB func.numValues func.constants.length func.insts

/-- So has the function that the block is added to. -/
theorem parseBB_reads
    {text : List UInt8}
    (areRead : context.func.Read context.numFunc)
    (parses : parseBB outside context text = .ok func) :
    func.Read context.numFunc := by
  unfold parseBB at parses
  dsimp only at parses
  split at parses
  · cases parses
  split at parses
  · obtain ⟨⟨insts, constants, _⟩, readsInsts, parses⟩ := bind_eq_ok_iff.mp parses
    obtain ⟨_, -, parses⟩ := bind_eq_ok_iff.mp parses
    obtain ⟨_, -, parses⟩ := bind_eq_ok_iff.mp parses
    split at parses
    · cases parses
      exact ⟨areRead.fewValues, readInsts_reads _ areRead.insts readsInsts⟩
    · cases parses
  · cases parses

end

section

variable {outside : Outside} {apis : Apis}

/-- The functions that are loaded were read. -/
def CliBc.Read (bc : CliBc) : Prop := ∀ func ∈ bc.funcs, func.Read bc.numFunc

/-- The function in progress was read as well. -/
def ParseState.Read (bc : CliBc) : ParseState → Prop
  | .bb func => func.Read bc.numFunc
  | _ => True

/-- What holds of the loading after a row. -/
def RowResult.Read : RowResult → Prop
  | .next state bc => bc.Read ∧ state.Read bc
  | .finished bc => bc.Read
  | .skipped bc => bc.Read

theorem readValueTypes_length
    (count : Nat)
    {types : List Nat}
    {text rest : List UInt8}
    (reads : readValueTypes count text = .ok (types, rest)) :
    types.length = count := by
  induction count generalizing types text rest with
  | zero =>
    cases reads
    rfl
  | succ count ih =>
    rw [readValueTypes, bind_eq_ok_iff] at reads
    obtain ⟨_, -, reads⟩ := reads
    obtain ⟨_, -, reads⟩ := bind_eq_ok_iff.mp reads
    obtain ⟨⟨others, _⟩, readsOthers, isOk⟩ := bind_eq_ok_iff.mp reads
    have isTypes := congrArg (fun parsed : List Nat × List UInt8 => parsed.1.length)
      (Except.ok.inj isOk)
    rw [← isTypes]
    exact congrArg Nat.succ (ih readsOthers)

theorem readFixedNumber_one_lt
    {n : Nat}
    {text rest : List UInt8}
    (reads : readFixedNumber text 1 = .ok (n, rest)) :
    n < 16 := by
  have isSmall (v : UInt8) : (v &&& 0x0f).toNat < 16 := by
    rw [UInt8.toNat_and]
    exact lt_of_le_of_lt Nat.and_le_right (by decide)
  rw [readFixedNumber, readNibbles] at reads
  split at reads
  · cases reads
  split at reads
  · cases reads
    match text with
    | [] => exact Nat.zero_lt_succ _
    | v :: _ => exact isSmall v
  · cases reads

/-- A new function has no instructions. -/
theorem parseFunctionHeader_reads
    {table : TypeTable}
    {numFunc : Nat}
    {text : List UInt8}
    (parses : parseFunctionHeader table text = .ok func) :
    func.Read numFunc := by
  unfold parseFunctionHeader at parses
  split at parses
  · obtain ⟨⟨numArgs, _⟩, readsArgs, parses⟩ := bind_eq_ok_iff.mp parses
    obtain ⟨_, -, parses⟩ := bind_eq_ok_iff.mp parses
    dsimp only at parses
    split at parses
    · obtain ⟨⟨numLocals, _⟩, -, parses⟩ := bind_eq_ok_iff.mp parses
      obtain ⟨⟨types, _⟩, readsTypes, parses⟩ := bind_eq_ok_iff.mp parses
      split at parses
      · obtain ⟨_, -, parses⟩ := bind_eq_ok_iff.mp parses
        obtain ⟨_, -, isOk⟩ := bind_eq_ok_iff.mp parses
        have isTypes : types = func.types := congrArg Func.types (Except.ok.inj isOk)
        have isInsts : [] = func.insts := congrArg Func.insts (Except.ok.inj isOk)
        refine ⟨?_, fun inst isInst => ?_⟩
        · have isLength := readValueTypes_length _ readsTypes
          have fewArgs := readFixedNumber_one_lt readsArgs
          rw [Func.numValues, ← isTypes, isLength]
          omega
        · rw [← isInsts] at isInst
          cases isInst
      · cases parses
    · cases parses
  · cases parses

variable {bc : CliBc} {result : RowResult}

theorem orSkip_reads
    {α : Type}
    {parsed : Except Status α}
    {continue_ : α → RowResult}
    (isRead : bc.Read)
    (continues : ∀ a, (continue_ a).Read)
    (skips : orSkip bc parsed continue_ = .ok result) :
    result.Read := by
  unfold orSkip at skips
  split at skips
  · cases skips
    exact continues _
  · cases skips
    exact isRead
  · cases skips

/-- A row with a function keeps what was read. -/
theorem loadFunctionRow_reads
    (isRead : bc.Read)
    (loads : loadFunctionRow bc row = .ok result) :
    result.Read := by
  unfold loadFunctionRow at loads
  split at loads
  · cases loads
    exact isRead
  split at loads
  · cases loads
  · obtain ⟨func, parses, isOk⟩ := bind_eq_ok_iff.mp loads
    cases isOk
    exact ⟨isRead, parseFunctionHeader_reads parses⟩

/-- A row with a block keeps it too. -/
theorem loadBlockRow_reads
    (isRead : bc.Read)
    (inProgress : func.Read bc.numFunc)
    (loads : loadBlockRow outside bc func row = .ok result) :
    result.Read := by
  obtain ⟨parsed, parses, loads⟩ := bind_eq_ok_iff.mp loads
  have isParsed : parsed.Read bc.numFunc := parseBB_reads inProgress parses
  split at loads
  · cases loads
    exact ⟨isRead, isParsed⟩
  split at loads
  · cases loads
  cases loads
  refine ⟨fun other isOther => ?_, trivial⟩
  rcases mem_append.mp isOther with isEarlier | isLast
  · exact isRead other isEarlier
  · cases mem_singleton.mp isLast
    exact isParsed

/-- So does every row. -/
theorem loadRow_reads
    {state : ParseState}
    (isRead : bc.Read)
    (inProgress : state.Read bc)
    (loads : loadRow outside apis state bc row = .ok result) :
    result.Read := by
  cases state with
  | lsig =>
    cases loads
    exact ⟨isRead, trivial⟩
  | types =>
    obtain ⟨table, -, isOk⟩ := bind_eq_ok_iff.mp loads
    cases isOk
    exact ⟨isRead, trivial⟩
  | apis | globals =>
    refine orSkip_reads isRead ?_ loads
    exact fun _ => ⟨isRead, trivial⟩
  | mdOptHeader =>
    rw [loadRow] at loads
    split at loads
    · obtain ⟨count, -, isOk⟩ := bind_eq_ok_iff.mp loads
      cases isOk
      exact ⟨isRead, trivial⟩
    · exact loadFunctionRow_reads isRead loads
  | funcHeader => exact loadFunctionRow_reads isRead loads
  | bb func => exact loadBlockRow_reads isRead inProgress loads

theorem loadEnd_reads
    {bc' : CliBc}
    (isRead : bc.Read)
    (ends : loadEnd bc = .ok bc') :
    bc'.Read := by
  rw [loadEnd] at ends
  split at ends
  · cases ends
    exact isRead
  · cases ends

/-- So do all rows of a file. -/
theorem loadRows_reads
    (rows : List (List UInt8))
    {state : ParseState}
    {bc bc' : CliBc}
    (isRead : bc.Read)
    (inProgress : state.Read bc)
    (loads : loadRows outside apis state bc rows = .ok bc') :
    bc'.Read := by
  induction rows generalizing state bc bc' with
  | nil =>
    exact loadEnd_reads isRead loads
  | cons row rows ih =>
    rw [loadRows, bind_eq_ok_iff] at loads
    obtain ⟨result, loadsRow, loads⟩ := loads
    have after := loadRow_reads isRead inProgress loadsRow
    cases result with
    | next state bc => exact ih after.1 after.2 loads
    | finished bc => exact loadEnd_reads after loads
    | skipped bc =>
      cases loads
      exact after

/-- What `cli_bytecode_load` accepts was read. -/
theorem cliBytecodeLoad_reads
    {source : RowSource}
    (loads : cliBytecodeLoad outside apis source = .ok bc) :
    bc.Read := by
  have isEmpty (numTypes numFunc : Nat) : (startBytecode numTypes numFunc).Read :=
    fun func never => by cases never
  unfold cliBytecodeLoad at loads
  split at loads
  · cases loads
  split at loads
  · cases loads
    exact isEmpty 0 0
  · cases loads
  split at loads
  · cases loads
  · refine loadRows_reads _ (isEmpty _ _) ?_ loads
    trivial

end

section

variable {outside : Outside} {remap : Remap} {j val : Nat}

/-- What `MAP` checks of a global. -/
def GlobalPasses
    (bc : CliBc)
    (o : Nat) :
    Prop := 0x80000000 ≤ o → o - 0x80000000 ≤ bc.numGlobals

/-- An operand that is mapped has passed the check of globals. -/
theorem mapOperand_passes
    {op : Nat}
    (maps : remap.mapOperand outside j val = .ok op) :
    GlobalPasses remap.bc val := by
  intro isGlobal
  rw [Remap.mapOperand, if_pos isGlobal] at maps
  dsimp only at maps
  split at maps
  · cases maps
  · rename_i passes
    exact not_lt.mp passes

theorem mapPointer_passes
    {op : Nat}
    (fewValues : remap.func.numValues < 0x80000000)
    (maps : remap.mapPointer outside j val = .ok op) :
    GlobalPasses remap.bc val := by
  rw [Remap.mapPointer] at maps
  split_ifs at maps with isVariable
  · intro isGlobal
    exact absurd (lt_trans isVariable.1 fewValues) (not_lt.mpr isGlobal)
  · exact mapOperand_passes maps

theorem mapPointers_passes
    (fewValues : remap.func.numValues < 0x80000000)
    (vals : List Nat) :
    ∀ {ops : List Nat}, remap.mapPointers outside j vals = .ok ops →
      ∀ val ∈ vals, GlobalPasses remap.bc val := by
  induction vals with
  | nil =>
    intro ops _ val never
    cases never
  | cons first vals ih =>
    intro ops maps val isVal
    rw [Remap.mapPointers, bind_eq_ok_iff] at maps
    obtain ⟨op, mapsFirst, maps⟩ := maps
    obtain ⟨others, mapsOthers, -⟩ := bind_eq_ok_iff.mp maps
    rcases mem_cons.mp isVal with rfl | isOther
    · exact mapPointer_passes fewValues mapsFirst
    · exact ih mapsOthers val isOther

/-- So have the operands of a body that is prepared. -/
theorem prepareBody_passes
    {width width' : Nat}
    {body body' : Body}
    (fewValues : remap.func.numValues < 0x80000000)
    (prepares : remap.prepareBody outside j width body = .ok (width', body')) :
    ∀ o ∈ body.remapped, GlobalPasses remap.bc o := by
  have passes {val op : Nat} := @mapOperand_passes outside remap j val op
  have pointerPasses {val op : Nat} := @mapPointer_passes outside remap j val op fewValues
  cases body with
  | bin _ left right | icmp _ left right | copy left right | store left right
  | gepz _ left right =>
    obtain ⟨_, first, prepares⟩ := bind_eq_ok_iff.mp prepares
    obtain ⟨_, second, -⟩ := bind_eq_ok_iff.mp prepares
    simpa [Body.remapped] using ⟨passes first, passes second⟩
  | cast _ source _ _ | branch source _ _ | ret source | bswap _ source =>
    obtain ⟨_, first, -⟩ := bind_eq_ok_iff.mp prepares
    simpa [Body.remapped] using passes first
  | select condition first second =>
    obtain ⟨_, mapsCondition, prepares⟩ := bind_eq_ok_iff.mp prepares
    obtain ⟨_, mapsFirst, prepares⟩ := bind_eq_ok_iff.mp prepares
    obtain ⟨_, mapsSecond, -⟩ := bind_eq_ok_iff.mp prepares
    simpa [Body.remapped] using ⟨passes mapsCondition, passes mapsFirst, passes mapsSecond⟩
  | callDirect funcid ops _ =>
    rw [Remap.prepareBody] at prepares
    split at prepares
    · cases prepares
    split at prepares
    · cases prepares
    · obtain ⟨_, maps, -⟩ := bind_eq_ok_iff.mp prepares
      exact mapPointers_passes fewValues ops maps
  | callApi funcid ops _ =>
    rw [Remap.prepareBody] at prepares
    split at prepares
    · cases prepares
    · obtain ⟨_, maps, -⟩ := bind_eq_ok_iff.mp prepares
      exact mapPointers_passes fewValues ops maps
  | load pointer | ptrtoint64 pointer =>
    obtain ⟨_, first, -⟩ := bind_eq_ok_iff.mp prepares
    simpa [Body.remapped] using pointerPasses first
  | ptrdiff32 left right =>
    obtain ⟨_, first, prepares⟩ := bind_eq_ok_iff.mp prepares
    obtain ⟨_, second, -⟩ := bind_eq_ok_iff.mp prepares
    simpa [Body.remapped] using ⟨pointerPasses first, pointerPasses second⟩
  | gep1 _ base offset =>
    rw [Remap.prepareBody] at prepares
    split at prepares
    · cases prepares
    · obtain ⟨_, mapsBase, prepares⟩ := bind_eq_ok_iff.mp prepares
      obtain ⟨_, mapsOffset, -⟩ := bind_eq_ok_iff.mp prepares
      simpa [Body.remapped] using ⟨passes mapsBase, passes mapsOffset⟩
  | mem _ first second count =>
    obtain ⟨_, mapsFirst, prepares⟩ := bind_eq_ok_iff.mp prepares
    obtain ⟨_, mapsSecond, prepares⟩ := bind_eq_ok_iff.mp prepares
    obtain ⟨_, mapsCount, -⟩ := bind_eq_ok_iff.mp prepares
    simpa [Body.remapped] using
      ⟨pointerPasses mapsFirst, pointerPasses mapsSecond, passes mapsCount⟩
  | unnamed | jmp _ | retVoid | gepn _ _ | isBigEndian | abort => simp [Body.remapped]

theorem prepareInsts_passes
    (fewValues : remap.func.numValues < 0x80000000)
    (insts : List Inst) :
    ∀ {j : Nat} {prepared : List Inst}, remap.prepareInsts outside j insts = .ok prepared →
      ∀ inst ∈ insts, ∀ o ∈ inst.body.remapped, GlobalPasses remap.bc o := by
  induction insts with
  | nil =>
    intro j prepared _ inst never
    cases never
  | cons first insts ih =>
    intro j prepared prepares inst isInst
    rw [Remap.prepareInsts, bind_eq_ok_iff] at prepares
    obtain ⟨_, preparesFirst, prepares⟩ := prepares
    obtain ⟨_, preparesOthers, -⟩ := bind_eq_ok_iff.mp prepares
    rcases mem_cons.mp isInst with rfl | isOther
    · obtain ⟨_, preparesBody, -⟩ := bind_eq_ok_iff.mp preparesFirst
      exact prepareBody_passes fewValues preparesBody
    · exact ih preparesOthers inst isOther

variable {bc : CliBc}

/-- So have the operands of all functions. -/
theorem prepareFuncs_passes
    {gmap : List Nat}
    (funcs : List Func) :
    ∀ {i : Nat} {prepared : List Func}, (∀ func ∈ funcs, func.numValues < 0x80000000) →
      prepareFuncs outside bc gmap i funcs = .ok prepared →
        ∀ func ∈ funcs, ∀ inst ∈ func.insts, ∀ o ∈ inst.body.remapped, GlobalPasses bc o := by
  induction funcs with
  | nil =>
    intro i prepared _ _ func never
    cases never
  | cons first funcs ih =>
    intro i prepared fewValues prepares func isFunc
    rw [prepareFuncs, bind_eq_ok_iff] at prepares
    obtain ⟨_, preparesFirst, prepares⟩ := prepares
    obtain ⟨_, preparesOthers, -⟩ := bind_eq_ok_iff.mp prepares
    rcases mem_cons.mp isFunc with rfl | isOther
    · unfold prepareFunc at preparesFirst
      split at preparesFirst
      · obtain ⟨_, preparesInsts, -⟩ := bind_eq_ok_iff.mp preparesFirst
        exact prepareInsts_passes (fewValues func mem_cons_self) _ preparesInsts
      · cases preparesFirst
    · exact ih (fun other isFunc => fewValues other (mem_cons_of_mem _ isFunc))
        preparesOthers func isOther

/-- So have those of a bytecode that is prepared. -/
theorem cliBytecodePrepareInterpreter_passes
    {prepared : Prepared}
    (isRead : bc.Read)
    (prepares : cliBytecodePrepareInterpreter outside bc = .ok prepared) :
    ∀ func ∈ bc.funcs, ∀ inst ∈ func.insts, ∀ o ∈ inst.body.remapped, GlobalPasses bc o := by
  unfold cliBytecodePrepareInterpreter at prepares
  split at prepares
  · dsimp only at prepares
    split at prepares
    · cases prepares
    · obtain ⟨_, preparesFuncs, -⟩ := bind_eq_ok_iff.mp prepares
      exact prepareFuncs_passes _ (fun func isFunc => (isRead func isFunc).fewValues) preparesFuncs
  · cases prepares

/-- Only the global behind the last one passes without being there. -/
theorem operandInside_iff
    (isRead : OperandRead func.numValues func.constants.length o)
    (passes : GlobalPasses bc o) :
    OperandInside bc func o ↔ o ≠ 0x80000000 + bc.numGlobals := by
  rw [OperandInside]
  split
  · rename_i isGlobal
    have atMost := passes isGlobal
    omega
  rename_i isLocal
  have isBelow := isRead.resolve_left isLocal
  rw [totValues]
  exact iff_of_true (by omega) (by omega)

/-- An instruction is inside if it does not use that one. -/
theorem Inst.inside_iff
    (isRead : inst.body.Read bc.numFunc func.numBB func.numValues func.constants.length)
    (passes : ∀ o ∈ inst.body.remapped, GlobalPasses bc o) :
    inst.Inside bc func ↔ inst.Listed bc func := by
  constructor
  · intro inside
    refine ⟨inside.dest, fun o isOperand => ?_⟩
    exact (operandInside_iff (isRead.operands o isOperand) (passes o isOperand)).mp
      (inside.operands o isOperand)
  intro listed
  refine ⟨listed.dest, fun o isOperand => ?_, isRead.callee, isRead.targets⟩
  exact (operandInside_iff (isRead.operands o isOperand) (passes o isOperand)).mpr
    (listed.globals o isOperand)

/--
The remapping of a bytecode that is loaded and prepared stays inside its arrays exactly
if every destination is a value and no operand is the global behind the last.
-/
theorem indices_inside_iff_listed
    {outside : Outside}
    {apis : Apis}
    {source : RowSource}
    {prepared : Prepared}
    (loads : cliBytecodeLoad outside apis source = .ok bc)
    (prepares : cliBytecodePrepareInterpreter outside bc = .ok prepared) :
    bc.IndicesInside ↔ ∀ func ∈ bc.funcs, ∀ inst ∈ func.insts, inst.Listed bc func := by
  have isRead := cliBytecodeLoad_reads loads
  have passes := cliBytecodePrepareInterpreter_passes isRead prepares
  have perInst (func : Func) (isFunc : func ∈ bc.funcs) (inst : Inst)
      (isInst : inst ∈ func.insts) : inst.Inside bc func ↔ inst.Listed bc func :=
    Inst.inside_iff ((isRead func isFunc).insts inst isInst) (passes func isFunc inst isInst)
  constructor
  · intro inside func isFunc inst isInst
    exact (perInst func isFunc inst isInst).mp (inside func isFunc inst isInst)
  · intro listed func isFunc inst isInst
    exact (perInst func isFunc inst isInst).mpr (listed func isFunc inst isInst)

end

/-- No API calls. -/
def noApis : Apis := ⟨0, fun _ => [], fun _ _ _ _ => false⟩

def rowBytes (row : String) : List UInt8 := row.toList.map fun c => UInt8.ofNat c.toNat

/-- A file with five types, one global and the rows of one function. -/
def fileOf (rows : List String) : List UInt8 :=
  ((["ClamBCaf`|``````|`aeaap`clamcoincidencejb:64", "V", "Ted", "E``", "G`aaahAa`"] ++ rows).map
    fun row => rowBytes row ++ [0x0a]).flatten

/-- What is loaded with one function. -/
def sampleBc (func : Func) : CliBc where
  state := .loaded
  table := ⟨5, 69, [some ⟨.pointerType, [8], 1, 8, 8⟩, some ⟨.pointerType, [16], 1, 8, 8⟩,
    some ⟨.pointerType, [32], 1, 8, 8⟩, some ⟨.pointerType, [64], 1, 8, 8⟩, none]⟩
  usesApis := []
  globals := [(8, [1])]
  dbgnodeCnt := 0
  numFunc := 1
  funcs := [func]

/-- A function that adds a constant to its argument, calls itself with the global, and branches. -/
def callingFunc : Func where
  numArgs := 1
  types := [8, 8]
  numInsts := 5
  numBB := 3
  constants := [5]
  insts := [⟨8, 0, 1, .bin .add 0 2⟩, ⟨8, 0, 1, .callDirect 0 [0x80000000] []⟩,
    ⟨0, 0, 0, .branch 1 1 2⟩, ⟨0, 0, 0, .jmp 2⟩, ⟨0, 0, 0, .retVoid⟩]
  blocks := [⟨0, 3⟩, ⟨3, 1⟩, ⟨4, 1⟩]
  numBytes := 0

theorem callingFunc_listed :
    ∀ func ∈ (sampleBc callingFunc).funcs, ∀ inst ∈ func.insts,
      inst.Listed (sampleBc callingFunc) func := by
  intro func isFunc inst isInst
  cases mem_singleton.mp isFunc
  simp only [callingFunc, mem_cons, not_mem_nil, or_false] at isInst
  rcases isInst with rfl | rfl | rfl | rfl | rfl
  all_goals exact ⟨by decide, by decide⟩

/-- The operands, the call and the branch of the function are inside. -/
theorem indices_inside_calling :
    cliBytecodeLoad zeroOutside noApis (.ofFile (fileOf ["AaahLaaah`ah`Faeac",
        "Bah`a``Aeaah``baaa@`Taaaaaaab", "BTbaab", "BTdaE"])) =
      .ok (sampleBc callingFunc) ∧
    (sampleBc callingFunc).IndicesInside := by
  have loads : cliBytecodeLoad zeroOutside noApis (.ofFile (fileOf ["AaahLaaah`ah`Faeac",
      "Bah`a``Aeaah``baaa@`Taaaaaaab", "BTbaab", "BTdaE"])) = .ok (sampleBc callingFunc) := by
    decide +kernel
  have prepares : ∃ prepared,
      cliBytecodePrepareInterpreter zeroOutside (sampleBc callingFunc) = .ok prepared :=
    ⟨_, rfl⟩
  obtain ⟨prepared, prepares⟩ := prepares
  exact ⟨loads, (indices_inside_iff_listed loads prepares).mpr callingFunc_listed⟩

/-- A function that stores a byte and returns. -/
def storingFunc (dest numBytes : Nat) : Func :=
  ⟨0, [8], 2, 1, [], [⟨8, dest, 1, .isBigEndian⟩, ⟨0, 0, 0, .retVoid⟩], [⟨0, 2⟩], numBytes⟩

/-- The destination 9 is accepted where there are two values. -/
theorem indices_outside_dest :
    cliBytecodeLoad zeroOutside noApis (.ofFile (fileOf ["A`ahLaaah`Fabaa", "BahailbTdaE"])) =
        .ok (sampleBc (storingFunc 9 0)) ∧
      cliBytecodePrepareInterpreter zeroOutside (sampleBc (storingFunc 9 0)) =
        .ok ⟨sampleBc (storingFunc 0 8), [0]⟩ ∧
      ¬ (sampleBc (storingFunc 9 0)).IndicesInside := by
  refine ⟨by decide +kernel, by decide +kernel, fun inside => ?_⟩
  have isInside := inside _ mem_cons_self _ mem_cons_self
  exact absurd isInside.dest (by decide)

end LibClamav.Bytecode
