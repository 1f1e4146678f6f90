import Mathlib.Data.List.Basic
import Mathlib.Algebra.Group.Nat.Defs
import Mathlib.Algebra.Group.Int.Defs

namespace LibClamav.Tar

/-!
# Tar streams of databases

`cli_untgz` unpacks a database, `cli_tgzload` loads it.  Both read the stream in
blocks of 512 bytes, the first one block after the other, the second with seeks over
whole blocks.  A stream is the list of its blocks, the last one possibly incomplete.
-/

/-- `TAR_BLOCKSIZE` -/
def tarBlocksize : Nat := 512

abbrev Block := List UInt8

/-- The bytes of a field up to its first zero. -/
def fieldText (block : Block) (start length : Nat) : List UInt8 :=
  ((block.drop start).take length).takeWhile (· ≠ 0)

/-- `name` -/
def headerName (block : Block) : List UInt8 := fieldText block 0 100

/-- `type` -/
def headerType (block : Block) : UInt8 := block.getD 156 0

/-- What `sscanf` makes of a number: it fails to match, ends before it, or converts it. -/
inductive Scanned where
  | mismatch
  | ended
  | converted (n : Nat)
  deriving Repr, DecidableEq

def isBlank (c : UInt8) : Bool := c = 0x20 ∨ 0x09 ≤ c ∧ c ≤ 0x0d

def isOctalDigit (c : UInt8) : Bool := 0x30 ≤ c ∧ c ≤ 0x37

def octalValue (digits : List UInt8) : Nat := digits.foldl (fun n c => 8 * n + (c.toNat - 0x30)) 0

/-- `sscanf(text, "%o", &n)` for an `unsigned int`. -/
def sscanfOctal (text : List UInt8) : Scanned :=
  match text.dropWhile isBlank with
  | [] => .ended
  | c :: rest =>
    let number := if c = 0x2b ∨ c = 0x2d then rest else c :: rest
    match number.takeWhile isOctalDigit with
    | [] => .mismatch
    | digits =>
      let n := octalValue digits
      .converted (if c = 0x2d then (2 ^ 64 - n) % 2 ^ 32 else n % 2 ^ 32)

/-- What is scanned of the size field. -/
def headerSize (block : Block) : Scanned := sscanfOctal (fieldText block 124 12)

/-- A member as a reader sees it. -/
structure Seen where
  name : List UInt8
  size : Nat
  content : List UInt8
  deriving Repr, DecidableEq

/-- A header that both readers accept: no slash in its name, and a plain file. -/
def acceptsHeader (block : Block) : Bool :=
  0x2f ∉ headerName block ∧ (headerType block = 0x30 ∨ headerType block = 0)

/-- The variables of `cli_untgz`, with the files that it wrote, the last one open. -/
structure Untgz where
  inBlock : Bool
  size : Nat
  files : List Seen
  deriving Repr, DecidableEq

/-- `fwrite` to the open file. -/
def appendLast (bytes : List UInt8) : List Seen → List Seen
  | [] => []
  | [file] => [{ file with content := file.content ++ bytes }]
  | file :: files => file :: appendLast bytes files

/-- Whether the loop goes on, or how it ends. -/
inductive Turn (σ : Type) where
  | next (state : σ)
  | stop (state : σ) (ok : Bool)

/-- A turn of the loop for a block that was read. -/
def untgzTurn (state : Untgz) (block : Block) : Turn Untgz :=
  if block.length ≠ tarBlocksize then
    .stop state false
  else if ¬ state.inBlock then
    if block.headD 0 = 0 then
      .stop state true
    else if ¬ acceptsHeader block then
      .stop state false
    else
      match headerSize block with
      | .mismatch => .stop { state with files := state.files ++ [⟨headerName block, 0, []⟩] } false
      | .ended =>
        .next ⟨true, state.size, state.files ++ [⟨headerName block, state.size, []⟩]⟩
      | .converted size =>
        .next ⟨true, size, state.files ++ [⟨headerName block, size, []⟩]⟩
  else
    let nbytes := min state.size tarBlocksize
    .next ⟨state.size - nbytes ≠ 0, state.size - nbytes, appendLast (block.take nbytes) state.files⟩

/-- The loop of `cli_untgz`: the files and whether it returns 0. -/
def untgzLoop : Untgz → List Block → List Seen × Bool
  | state, [] => (state.files, ¬ state.inBlock)
  | state, block :: blocks =>
    match untgzTurn state block with
    | .next state => untgzLoop state blocks
    | .stop state ok => (state.files, ok)

/-- `cli_untgz`; `unset` is what `size` holds at the start. -/
def cliUntgz (unset : Nat) (blocks : List Block) : List Seen × Bool :=
  untgzLoop ⟨false, unset, []⟩ blocks

/-- `size + pad` -/
def paddedSize (size : Nat) : Nat :=
  size + (if size % tarBlocksize = 0 then 0 else tarBlocksize - size % tarBlocksize)

/--
How many blocks `cli_tgzload` moves over: what it seeks is in 32 bits, unless
`cli_load` has read the member.
-/
def skippedBlocks (loads : Bool) (size : Nat) : Nat :=
  if loads ∧ size ≠ 0 then
    paddedSize size / tarBlocksize
  else
    paddedSize size % 2 ^ 32 / tarBlocksize

/--
The loop of `cli_tgzload` with a list of the databases, over `skip` blocks first.
`loads` are the names that `cli_load` is called for, which reads the whole member.
-/
def tgzloadLoop (loads : List UInt8 → Bool) : Nat → Nat → List Block → List Seen × Bool
  | _, _, [] => ([], true)
  | skip + 1, size, _ :: blocks => tgzloadLoop loads skip size blocks
  | 0, size, block :: blocks =>
    if block.length ≠ tarBlocksize then
      ([], false)
    else if block.headD 0 = 0 then
      ([], true)
    else if ¬ acceptsHeader block then
      ([], false)
    else
      let name := headerName block
      let member (size : Nat) : List Seen × Bool :=
        let (files, ok) :=
          tgzloadLoop loads (skippedBlocks (loads name) size) size blocks
        (⟨name, size, blocks.flatten.take size⟩ :: files, ok)
      match headerSize block with
      | .mismatch => ([], false)
      | .ended => member size
      | .converted size => member size

/-- `cli_tgzload`; `unset` is what `size` holds at the start. -/
def cliTgzload
    (loads : List UInt8 → Bool)
    (unset : Nat)
    (blocks : List Block) :
    List Seen × Bool :=
  tgzloadLoop loads 0 unset blocks

end LibClamav.Tar
