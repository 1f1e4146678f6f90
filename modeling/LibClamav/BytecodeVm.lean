import LibClamav.BytecodeInstSource

namespace LibClamav.Bytecode

/-!
# Arithmetic and API calls of the interpreter

The binary operations of `cli_vm_execute` at the widths of integers, with an
outcome for what C leaves undefined, and the operands that `OP_BC_CALL_API` reads
for a function of each kind.
-/

/-- `opc*5+1` to `opc*5+4` -/
inductive Width where
  | w8
  | w16
  | w32
  | w64

/-- The bits of the operands, also `inst->type`. -/
def Width.bits : Width → Nat
  | .w8 => 8
  | .w16 => 16
  | .w32 => 32
  | .w64 => 64

/-- What an operation ends with; `stop` is `CL_EBYTECODE`. -/
inductive Outcome (w : Nat) where
  | stop
  | undefined
  | value (res : BitVec w)
  deriving DecidableEq

/-- `check_sdivops` -/
def checkSdivops (op0 op1 : Int) : Bool :=
  op1 == 0 || (op0 == -1 && op1 == -9223372036854775807 - 1)

section

variable {w : Nat} (op : BinOp) (op0 op1 : BitVec w)

/-- `CHECK_OP` of an operation. -/
def checkOp : Bool :=
  match op with
  | .udiv | .urem => op1 == 0
  | .sdiv | .srem => checkSdivops op0.toInt op1.toInt
  | .shl | .lshr | .ashr => w < op1.toNat
  | _ => false

/-- The number that the expression of an operation stands for. -/
def exactResult : Int :=
  match op with
  | .add => op0.toNat + op1.toNat
  | .sub => op0.toNat - op1.toNat
  | .mul => op0.toNat * op1.toNat
  | .udiv => op0.toNat / op1.toNat
  | .sdiv => op0.toInt.tdiv op1.toInt
  | .urem => op0.toNat % op1.toNat
  | .srem => op0.toInt.tmod op1.toInt
  | .shl => op0.toNat * 2 ^ op1.toNat
  | .lshr => op0.toNat / 2 ^ op1.toNat
  | .ashr => op0.toInt / 2 ^ op1.toNat
  | .and => (op0 &&& op1).toNat
  | .or => (op0 ||| op1).toNat
  | .xor => (op0 ^^^ op1).toNat

/-- C does not define the expression; narrow operands are promoted to `int`. -/
def isUndefined : Bool :=
  match op with
  | .mul => w < 32 && 2 ^ 31 ≤ op0.toNat * op1.toNat
  | .udiv | .urem => op1 == 0
  | .sdiv | .srem => op1 == 0 || (op0.toInt == -2 ^ (max w 32 - 1) && op1.toInt == -1)
  | .shl => max w 32 ≤ op1.toNat || (w < 32 && 2 ^ 31 ≤ op0.toNat * 2 ^ op1.toNat)
  | .lshr | .ashr => max w 32 ≤ op1.toNat
  | _ => false

/-- `DEFINE_BINOP` -/
def binop : Outcome w :=
  if checkOp op op0 op1 then
    .stop
  else if isUndefined op op0 op1 then
    .undefined
  else
    .value (BitVec.ofInt w (exactResult op op0 op1))

/-- The smallest number divided by -1. -/
def Overflows : Prop := op0.toInt = -2 ^ (w - 1) ∧ op1.toInt = -1

/-- The operands that have to be caught. -/
def MustStop : Prop :=
  match op with
  | .udiv | .urem => op1 = 0
  | .sdiv | .srem => op1 = 0 ∨ Overflows op0 op1
  | .shl | .lshr | .ashr => w ≤ op1.toNat
  | _ => False

/-- The operation stops or has the defined result, and it stops where it has to. -/
def IsDefined : Prop := (binop op op0 op1 = .stop ∨
      binop op op0 op1 = .value (BitVec.ofInt w (exactResult op op0 op1))) ∧
    (MustStop op op0 op1 → binop op op0 op1 = .stop)

/-- The operands that are not caught. -/
def Escapes : Prop :=
  match op with
  | .mul => w = 16 ∧ 2 ^ 31 ≤ op0.toNat * op1.toNat
  | .sdiv | .srem => Overflows op0 op1
  | .shl | .lshr | .ashr => op1.toNat = w
  | _ => False

end

section

variable {w : Nat} {op : BinOp} {op0 op1 : BitVec w}

theorem isDefined_of_checkOp (stops : checkOp op op0 op1 = true) : IsDefined op op0 op1 := by
  have isStop : binop op op0 op1 = .stop := if_pos stops
  exact ⟨.inl isStop, fun _ => isStop⟩

/-- An operation that passes is defined if C defines it and it need not stop. -/
theorem isDefined_iff_of_passes
    (passes : checkOp op op0 op1 = false) :
    IsDefined op op0 op1 ↔ isUndefined op op0 op1 = false ∧ ¬ MustStop op op0 op1 := by
  rw [IsDefined, binop, passes]
  cases isUndefined op op0 op1 <;> simp

/-- What is stopped does not escape. -/
theorem not_escapes_of_checkOp (stops : checkOp op op0 op1 = true) : ¬ Escapes op op0 op1 := by
  cases op with
  | sdiv | srem =>
    rintro ⟨-, isMinus⟩
    simp [checkOp, checkSdivops, isMinus] at stops
  | shl | lshr | ashr =>
    intro isWidth
    exact absurd isWidth (ne_of_gt (of_decide_eq_true stops))
  | _ => simp_all [checkOp, Escapes]

theorem shl_small
    (narrow : 2 * w ≤ 32)
    (less : op1.toNat < w) :
    op0.toNat * 2 ^ op1.toNat < 2 ^ 31 :=
  calc
    op0.toNat * 2 ^ op1.toNat < 2 ^ w * 2 ^ op1.toNat :=
      Nat.mul_lt_mul_of_pos_right op0.isLt (Nat.two_pow_pos _)
    _ = 2 ^ (w + op1.toNat) := (Nat.pow_add 2 w _).symm
    _ ≤ 2 ^ 31 := Nat.pow_le_pow_right (by decide) (by omega)

end

/-- The operands that pass the check and are not caught are those that C leaves undefined and
those that have to be caught. -/
theorem escapes_iff
    (width : Width)
    {op : BinOp}
    {op0 op1 : BitVec width.bits}
    (passes : checkOp op op0 op1 = false) :
    Escapes op op0 op1 ↔ isUndefined op op0 op1 = true ∨ MustStop op op0 op1 := by
  cases op with
  | add | sub | and | or | xor => simp [Escapes, isUndefined, MustStop]
  | udiv | urem => simp_all [Escapes, isUndefined, MustStop, checkOp]
  | mul =>
    simp only [Escapes, isUndefined, MustStop, or_false, Bool.and_eq_true, decide_eq_true_eq]
    refine ⟨fun large => ⟨by rw [large.1]; decide, large.2⟩, fun large => ⟨?_, large.2⟩⟩
    cases width with
    | w8 =>
      have small := Nat.mul_lt_mul'' op0.isLt op1.isLt
      exact absurd large.2 (not_le.mpr (lt_trans small (by decide)))
    | w16 => rfl
    | w32 | w64 => exact absurd large.1 (by decide)
  | sdiv | srem =>
    have notZero : op1 ≠ 0 := by
      rintro rfl
      simp [checkOp, checkSdivops] at passes
    simp only [Escapes, isUndefined, MustStop, notZero, false_or, beq_eq_false_iff_ne.mpr notZero,
      Bool.false_or, Bool.and_eq_true, beq_iff_eq]
    refine ⟨.inr, fun either => either.elim (fun overflows => ⟨?_, overflows.2⟩) id⟩
    have least := BitVec.le_toInt op0
    cases width <;> simp_all [Width.bits]
  | shl | lshr | ashr =>
    have inside : op1.toNat ≤ width.bits := by simpa [checkOp] using passes
    simp only [Escapes, isUndefined, MustStop, Bool.or_eq_true, Bool.and_eq_true, decide_eq_true_eq]
    refine ⟨fun isWidth => .inr (le_of_eq isWidth.symm), fun either => le_antisymm inside ?_⟩
    by_contra less
    have small := @shl_small width.bits op0 op1
    cases width <;> simp_all [Width.bits] <;> omega

/--
A binary operation stops or has its defined result, and stops where it has to, unless
the smallest number is divided by -1, a shift is as wide as its operand, or a product of
16 bits leaves the `int` that it is computed in.
-/
theorem binop_isDefined_iff
    (width : Width)
    (op : BinOp)
    (op0 op1 : BitVec width.bits) :
    IsDefined op op0 op1 ↔ ¬ Escapes op op0 op1 := by
  cases passes : checkOp op op0 op1 with
  | true => exact iff_of_true (isDefined_of_checkOp passes) (not_escapes_of_checkOp passes)
  | false =>
    rw [isDefined_iff_of_passes passes, escapes_iff width passes, not_or, Bool.not_eq_true]

/-- The least number divided by -1. -/
theorem sdiv_overflow_escapes :
    let least : BitVec Width.w32.bits := 0x80000000
    binop .sdiv least (-1) = .undefined ∧ MustStop .sdiv least (-1) :=
  ⟨by decide, .inr ⟨by decide, by decide⟩⟩

/-- `api->kind`, by the types of the functions. -/
inductive ApiKind where
  | int2
  | pointer
  | int1
  | malloclike
  | ptrbuffdata
  | allocobj
  | bufget
  | int3
  | twoBufs
  | ptrbufid

/-- What operands are read from, and what pointers stand for. -/
structure Frame (π : Type) where
  /-- `bc->globalBytes` -/
  globalBytes : List UInt8
  /-- `values`, `func->numBytes` of them -/
  values : List UInt8
  /-- `ptr_torealptr`: the address, unless the pointer has fewer bytes behind it -/
  realPtr : Nat → UInt32 → Option π
  /-- `&values[ptr]` -/
  address : Nat → π

/-- An argument of a call. -/
inductive Arg (π : Type) where
  | num (value : UInt32)
  | ptr (pointer : π)
  deriving DecidableEq

/-- The number that some bytes hold, the lowest first. -/
def ofBytes (bytes : List UInt8) : Nat := bytes.foldr (fun b rest => b.toNat + 256 * rest) 0

/-- `READNfrom`: nothing if one of its checks fails. -/
def readNFrom (bytes : List UInt8) (width p : Nat) : Option Nat :=
  if bytes.length ≤ p + width - 1 ∨ p % width ≠ 0 then
    none
  else
    some (ofBytes ((bytes.drop p).take width))

variable {π : Type}

namespace Frame

/-- `READN` of as many bytes -/
def readN (m : Frame π) (width p : Nat) : Option Nat :=
  if p.testBit 31 then
    if p % 2 ^ 31 = 0 then some 0 else readNFrom m.globalBytes width (p % 2 ^ 31)
  else
    readNFrom m.values width p

/-- `READ32` -/
def read32 (m : Frame π) (p : Nat) : Option UInt32 := (m.readN 4 p).map UInt32.ofNat

/-- `READP` -/
def readP (m : Frame π) (p : Nat) (size : UInt32) : Option π :=
  (m.readN 8 p).bind fun pointer => m.realPtr pointer size

/-- `READPOP` -/
def readPOP (m : Frame π) (p : Nat) (size : UInt32) : Option π :=
  if p.testBit 30 then
    if m.values.length ≤ p - 2 ^ 30 then none else some (m.address (p - 2 ^ 30))
  else
    m.readP p size

end Frame

/-- Why no function is called. -/
inductive CallStop where
  /-- a check fails or a pointer is not valid: `CL_EBYTECODE` -/
  | ebytecode
  /-- `ops` is read behind its end -/
  | behind
  deriving DecidableEq

/-- `inst->u.ops.ops[i]`, read in some way. -/
def readOp
    {α : Type}
    (ops : List Nat)
    (i : Nat)
    (read : Nat → Option α) :
    Except CallStop α :=
  match ops[i]? with
  | none => .error .behind
  | some p =>
    match read p with
    | none => .error .ebytecode
    | some value => .ok value

/-- `OP_BC_CALL_API` up to the call: the arguments behind `ctx`. -/
def callApi
    (m : Frame π)
    (ops : List Nat)
    (kind : ApiKind) :
    Except CallStop (List (Arg π)) :=
  match kind with
  | .int2 | .bufget => do
    let a ← readOp ops 0 m.read32
    let b ← readOp ops 1 m.read32
    return [.num a, .num b]
  | .pointer => do
    let arg2 ← readOp ops 1 m.read32
    let arg1 ← readOp ops 0 (m.readPOP · arg2)
    return [.ptr arg1, .num arg2]
  | .int1 | .malloclike => do
    let a ← readOp ops 0 m.read32
    return [.num a]
  | .ptrbuffdata => do
    let arg2 ← readOp ops 1 m.read32
    let arg1 ← readOp ops 0 (m.readP · arg2)
    let arg3 ← readOp ops 2 m.read32
    let arg4 ← readOp ops 3 m.read32
    let arg5 ← readOp ops 4 m.read32
    return [.ptr arg1, .num arg2, .num arg3, .num arg4, .num arg5]
  | .allocobj => return []
  | .int3 => do
    let arg1 ← readOp ops 0 m.read32
    let arg2 ← readOp ops 1 m.read32
    let arg3 ← readOp ops 2 m.read32
    return [.num arg1, .num arg2, .num arg3]
  | .twoBufs => do
    let arg2 ← readOp ops 1 m.read32
    let arg1 ← readOp ops 0 (m.readP · arg2)
    let arg4 ← readOp ops 3 m.read32
    let arg3 ← readOp ops 0 (m.readP · arg4)
    return [.ptr arg1, .num arg2, .ptr arg3, .num arg4]
  | .ptrbufid => do
    let arg2 ← readOp ops 1 m.read32
    let arg1 ← readOp ops 0 (m.readP · arg2)
    let arg3 ← readOp ops 2 m.read32
    return [.ptr arg1, .num arg2, .num arg3]

/-- A parameter: a number, or a pointer whose size is the next argument. -/
inductive Param where
  | int
  | buffer
  | localOrBuffer

/-- The parameters of the functions of a kind. -/
def ApiKind.params : ApiKind → List Param
  | int2 | bufget => [.int, .int]
  | pointer => [.localOrBuffer, .int]
  | int1 | malloclike => [.int]
  | ptrbuffdata => [.buffer, .int, .int, .int, .int]
  | allocobj => []
  | int3 => [.int, .int, .int]
  | twoBufs => [.buffer, .int, .buffer, .int]
  | ptrbufid => [.buffer, .int, .int]

namespace Frame

/-- Operand `i` as a pointer to as many bytes, or to a local value. -/
def bufferOrLocal
    (m : Frame π)
    (ops : List Nat)
    (i : Nat)
    (size : UInt32) :
    Option π :=
  (ops[i]?).bind (m.readPOP · size)

/-- Operand `i` as a number. -/
def num
    (m : Frame π)
    (ops : List Nat)
    (i : Nat) :
    Option UInt32 := (ops[i]?).bind m.read32

/-- Operand `i` as a pointer to as many bytes. -/
def buffer (m : Frame π) (ops : List Nat) (i : Nat) (size : UInt32) : Option π :=
  (ops[i]?).bind (m.readP · size)

/-- The value of operand `i` for a parameter. -/
def value (m : Frame π) (ops : List Nat) (i : Nat) : Param → Option (Arg π)
  | .int => (m.num ops i).map .num
  | .buffer => (m.num ops (i + 1)).bind fun size => (m.buffer ops i size).map .ptr
  | .localOrBuffer => (m.num ops (i + 1)).bind fun size => (m.bufferOrLocal ops i size).map .ptr

end Frame

/-- Argument `i` of a call is the value of operand `i`, and nothing else is read for one. -/
structure InOrder (m : Frame π) (ops : List Nat) (kind : ApiKind) : Prop where
  inside : callApi m ops kind ≠ .error .behind
  inOrder : ∀ args, callApi m ops kind = .ok args → kind.params.mapIdx (m.value ops) = args.map some

/-- The operands in the order in which they are first read. -/
def ApiKind.reads : ApiKind → List Nat
  | int2 | bufget => [0, 1]
  | pointer => [1, 0]
  | int1 | malloclike => [0]
  | ptrbuffdata => [1, 0, 2, 3, 4]
  | allocobj => []
  | int3 => [0, 1, 2]
  | twoBufs => [1, 0, 3]
  | ptrbufid => [1, 0, 2]

/-- The instruction has each of the operands, up to the first that cannot be read. -/
def Supplied (m : Frame π) (ops : List Nat) (kind : ApiKind) : List Nat → Prop
  | [] => True
  | i :: later =>
    i < ops.length ∧
      ((∃ param ∈ kind.params[i]?, (m.value ops i param).isSome) → Supplied m ops kind later)

variable {α β : Type} {ops : List Nat} {i : Nat} {read : Nat → Option α}

/-- What comes behind the read of an operand stays inside where both do. -/
theorem readOp_bind_inside
    {f : α → Except CallStop β} :
    (readOp ops i read >>= f) ≠ .error .behind ↔
      i < ops.length ∧ ∀ value, (ops[i]?).bind read = some value → f value ≠ .error .behind := by
  rw [readOp]
  cases isOp : ops[i]? with
  | none => exact ⟨fun never => absurd rfl never, fun both => absurd both.1
      (Nat.not_lt.mpr (List.getElem?_eq_none_iff.mp isOp))⟩
  | some p =>
    have inside : i < ops.length := (List.getElem?_eq_some_iff.mp isOp).1
    dsimp only [Option.bind_some]
    cases read p with
    | none => exact ⟨fun _ => ⟨inside, nofun⟩, fun _ => nofun⟩
    | some value =>
      exact ⟨fun next => ⟨inside, fun _ same => Option.some.inj same ▸ next⟩,
        fun both => both.2 value rfl⟩

theorem readOp_bind_ok
    {f : α → Except CallStop β}
    {result : β} :
    (readOp ops i read >>= f) = .ok result ↔
      ∃ value, (ops[i]?).bind read = some value ∧ f value = .ok result := by
  rw [readOp]
  cases ops[i]? with
  | none => exact ⟨nofun, fun ⟨_, never, _⟩ => nomatch never⟩
  | some p =>
    dsimp only [Option.bind_some]
    cases read p with
    | none => exact ⟨nofun, fun ⟨_, never, _⟩ => nomatch never⟩
    | some value =>
      exact ⟨fun next => ⟨value, rfl, next⟩, fun ⟨_, same, next⟩ => Option.some.inj same ▸ next⟩

variable (m : Frame π) (ops : List Nat)

theorem num_eq (i : Nat) : (ops[i]?).bind m.read32 = m.num ops i := rfl

theorem buffer_eq
    (i : Nat)
    (size : UInt32) :
    (ops[i]?).bind (m.readP · size) = m.buffer ops i size :=
  rfl

theorem bufferOrLocal_eq
    (i : Nat)
    (size : UInt32) :
    (ops[i]?).bind (m.readPOP · size) = m.bufferOrLocal ops i size :=
  rfl

/-- A call reads no operand that the instruction does not have exactly if all are supplied. -/
theorem callApi_inside_iff
    (kind : ApiKind) :
    callApi m ops kind ≠ .error .behind ↔ Supplied m ops kind kind.reads := by
  cases kind with
  | allocobj => exact iff_of_true nofun trivial
  | int1 | malloclike =>
    simp [callApi, readOp_bind_inside, ApiKind.reads, Supplied, pure, Except.pure]
  | int2 | bufget =>
    simp only [callApi, readOp_bind_inside, num_eq]
    cases first : m.num ops 0 <;>
      simp [ApiKind.params, ApiKind.reads, Supplied, Frame.value, first, pure, Except.pure]
  | int3 =>
    simp only [callApi, readOp_bind_inside, num_eq]
    cases first : m.num ops 0 <;> cases second : m.num ops 1 <;>
      simp [ApiKind.params, ApiKind.reads, Supplied, Frame.value, first, second, pure, Except.pure]
  | pointer =>
    simp only [callApi, readOp_bind_inside, num_eq, bufferOrLocal_eq]
    cases size : m.num ops 1 <;>
      simp [ApiKind.params, ApiKind.reads, Supplied, Frame.value, size, pure, Except.pure]
  | ptrbufid =>
    simp only [callApi, readOp_bind_inside, num_eq, buffer_eq]
    cases size : m.num ops 1 with
    | none => simp [ApiKind.params, ApiKind.reads, Supplied, Frame.value, size]
    | some size1 =>
      cases first : m.buffer ops 0 size1 <;>
        simp [ApiKind.params, ApiKind.reads, Supplied, Frame.value, size, first, pure, Except.pure]
  | twoBufs =>
    simp only [callApi, readOp_bind_inside, num_eq, buffer_eq]
    cases size : m.num ops 1 with
    | none => simp [ApiKind.params, ApiKind.reads, Supplied, Frame.value, size]
    | some size1 =>
      cases first : m.buffer ops 0 size1 <;>
        simp +contextual [ApiKind.params, ApiKind.reads, Supplied, Frame.value, size, first, pure,
          Except.pure]
  | ptrbuffdata =>
    simp only [callApi, readOp_bind_inside, num_eq, buffer_eq]
    cases size : m.num ops 1 with
    | none => simp [ApiKind.params, ApiKind.reads, Supplied, Frame.value, size]
    | some size1 =>
      cases first : m.buffer ops 0 size1 with
      | none => simp [ApiKind.params, ApiKind.reads, Supplied, Frame.value, size, first]
      | some pointer =>
        cases second : m.num ops 2 <;> cases third : m.num ops 3 <;>
          simp [ApiKind.params, ApiKind.reads, Supplied, Frame.value, size, first, second, third,
            pure, Except.pure]

/-- The arguments of every kind but the one with two buffers are the values of the operands. -/
theorem callApi_values
    {kind : ApiKind}
    {args : List (Arg π)}
    (notTwo : kind ≠ .twoBufs)
    (called : callApi m ops kind = .ok args) :
    kind.params.mapIdx (m.value ops) = args.map some := by
  cases kind with
  | twoBufs => exact absurd rfl notTwo
  | allocobj =>
    cases called
    rfl
  | int1 | malloclike =>
    obtain ⟨a, isA, isArgs⟩ := readOp_bind_ok.mp called
    cases isArgs
    rw [num_eq] at isA
    simp [ApiKind.params, Frame.value, isA]
  | int2 | bufget =>
    obtain ⟨a, isA, called⟩ := readOp_bind_ok.mp called
    obtain ⟨b, isB, isArgs⟩ := readOp_bind_ok.mp called
    cases isArgs
    rw [num_eq] at isA isB
    simp [ApiKind.params, Frame.value, isA, isB]
  | int3 =>
    obtain ⟨a, isA, called⟩ := readOp_bind_ok.mp called
    obtain ⟨b, isB, called⟩ := readOp_bind_ok.mp called
    obtain ⟨c, isC, isArgs⟩ := readOp_bind_ok.mp called
    cases isArgs
    rw [num_eq] at isA isB isC
    simp [ApiKind.params, Frame.value, isA, isB, isC]
  | pointer =>
    obtain ⟨size, isSize, called⟩ := readOp_bind_ok.mp called
    obtain ⟨pointer, isPointer, isArgs⟩ := readOp_bind_ok.mp called
    cases isArgs
    rw [num_eq] at isSize
    rw [bufferOrLocal_eq] at isPointer
    simp [ApiKind.params, Frame.value, isSize, isPointer]
  | ptrbufid =>
    obtain ⟨size, isSize, called⟩ := readOp_bind_ok.mp called
    obtain ⟨pointer, isPointer, called⟩ := readOp_bind_ok.mp called
    obtain ⟨c, isC, isArgs⟩ := readOp_bind_ok.mp called
    cases isArgs
    rw [num_eq] at isSize isC
    rw [buffer_eq] at isPointer
    simp [ApiKind.params, Frame.value, isSize, isPointer, isC]
  | ptrbuffdata =>
    obtain ⟨size, isSize, called⟩ := readOp_bind_ok.mp called
    obtain ⟨pointer, isPointer, called⟩ := readOp_bind_ok.mp called
    obtain ⟨c, isC, called⟩ := readOp_bind_ok.mp called
    obtain ⟨d, isD, called⟩ := readOp_bind_ok.mp called
    obtain ⟨e, isE, isArgs⟩ := readOp_bind_ok.mp called
    cases isArgs
    rw [num_eq] at isSize isC isD isE
    rw [buffer_eq] at isPointer
    simp [ApiKind.params, Frame.value, isSize, isPointer, isC, isD, isE]

/-- A call with two buffers gets operand 0 for both. -/
theorem callApi_twoBufs
    {args : List (Arg π)} :
    callApi m ops .twoBufs = .ok args ↔
      ∃ size1 size3 first second,
        m.num ops 1 = some size1 ∧ m.num ops 3 = some size3 ∧
          m.buffer ops 0 size1 = some first ∧ m.buffer ops 0 size3 = some second ∧
          args = [.ptr first, .num size1, .ptr second, .num size3] := by
  simp only [callApi, readOp_bind_ok, num_eq, buffer_eq]
  constructor
  · rintro ⟨size1, isSize1, first, isFirst, size3, isSize3, second, isSecond, isArgs⟩
    cases isArgs
    exact ⟨size1, size3, first, second, isSize1, isSize3, isFirst, isSecond, rfl⟩
  · rintro ⟨size1, size3, first, second, isSize1, isSize3, isFirst, isSecond, rfl⟩
    exact ⟨size1, isSize1, first, isFirst, size3, isSize3, second, isSecond, rfl⟩

/--
The arguments of a call are the operands in order exactly if the instruction has all that are
read, and, for two buffers, where operand 0 is read for the second one again, operand 2
stands for the same address.
-/
theorem callApi_inOrder_iff
    (m : Frame π)
    (ops : List Nat)
    (kind : ApiKind) :
    InOrder m ops kind ↔
      Supplied m ops kind kind.reads ∧
        (kind = .twoBufs → ∀ size1 size3 first second,
          m.num ops 1 = some size1 → m.num ops 3 = some size3 →
          m.buffer ops 0 size1 = some first → m.buffer ops 0 size3 = some second →
          m.buffer ops 2 size3 = some second) := by
  constructor
  · rintro ⟨inside, inOrder⟩
    refine ⟨(callApi_inside_iff m ops kind).mp inside, ?_⟩
    rintro rfl size1 size3 first second isSize1 isSize3 isFirst isSecond
    have called := (callApi_twoBufs m ops).mpr
      ⟨size1, size3, first, second, isSize1, isSize3, isFirst, isSecond, rfl⟩
    have values := inOrder _ called
    simpa [ApiKind.params, Frame.value, isSize1, isSize3, isFirst] using values
  · rintro ⟨supplied, sameBuffer⟩
    refine ⟨(callApi_inside_iff m ops kind).mpr supplied, fun args called => ?_⟩
    by_cases isTwo : kind = .twoBufs
    · subst isTwo
      obtain ⟨size1, size3, first, second, isSize1, isSize3, isFirst, isSecond, rfl⟩ :=
        (callApi_twoBufs m ops).mp called
      have isThird := sameBuffer rfl size1 size3 first second isSize1 isSize3 isFirst isSecond
      simp [ApiKind.params, Frame.value, isSize1, isSize3, isFirst, isThird]
    · exact callApi_values m ops isTwo called

/-- The operands 8, 0, 16 and 4: two pointers and, at 0 and 4, the sizes 1 and 2. -/
def twoBufFrame : Frame Nat where
  globalBytes := []
  values := [1, 0, 0, 0, 2, 0, 0, 0, 5, 0, 0, 0, 1, 0, 0, 0, 7, 0, 0, 0, 1, 0, 0, 0]
  realPtr := fun pointer _ => some pointer
  address := id

/-- The function gets its first buffer, at 2^32 + 5, as the second one, which is at 2^32 + 7. -/
theorem callApi_repeats_buffer :
    callApi twoBufFrame [8, 0, 16, 4] .twoBufs =
        .ok [.ptr (2 ^ 32 + 5), .num 1, .ptr (2 ^ 32 + 5), .num 2] ∧
      twoBufFrame.value [8, 0, 16, 4] 2 .buffer = some (.ptr (2 ^ 32 + 7)) := by
  decide +kernel

end LibClamav.Bytecode
