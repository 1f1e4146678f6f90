import Mathlib.Data.List.Basic

namespace LibClamav.Dbgets

/-!
# Lines of databases

`cli_dbgets` reads the lines of a database that is a plain file with `fgets`.  A member
of a container is read through a buffer of `cli_tgzload`, which is refilled where it
holds no further newline.
-/

abbrev Line := List UInt8

def newline : UInt8 := 0x0a

/-- The fields of `struct cli_dbio` on the buffered path, with the bytes to be read. -/
structure Dbio where
  bufsize : Nat
  buf : List UInt8
  bufpt : Option Nat
  readpt : Nat
  readsize : Nat
  size : Nat
  stream : List UInt8
  deriving Repr, DecidableEq

/-- The number of bytes of the first read. -/
def firstRead (size bufsize : Nat) : Nat :=
  if size < bufsize then size else bufsize - 1

/-- What `cli_tgzload` sets up for a member, with the bytes behind its header. -/
def openMember (buf : List UInt8) (size : Nat) (stream : List UInt8) : Dbio where
  bufsize := buf.length
  buf := buf
  bufpt := none
  readpt := 0
  readsize := firstRead size buf.length
  size := size
  stream := stream

/-- Whether the loop goes round, or what the function returns. -/
inductive Turn where
  | again (dbio : Dbio)
  | done (line : Option Line) (dbio : Dbio)
  deriving Repr, DecidableEq

def writeAt (buf : List UInt8) (start : Nat) (bytes : List UInt8) : List UInt8 :=
  buf.take start ++ bytes ++ buf.drop (start + bytes.length)

/-- The read of the loop; `none` where the function returns. -/
def refill (dbio : Dbio) : Option Dbio :=
  if dbio.size = 0 then
    none
  else
    let bytes := dbio.stream.take dbio.readsize
    if bytes = [] then
      none
    else
      some { dbio with
        buf := writeAt dbio.buf dbio.readpt (bytes ++ [0])
        bufpt := some 0
        size := dbio.size - bytes.length
        stream := dbio.stream.drop bytes.length }

/-- The search of the loop, for a caller's buffer of some size. -/
def searchLine (room : Nat) (dbio : Dbio) (bufpt : Nat) : Turn :=
  let text := (dbio.buf.drop bufpt).takeWhile (· ≠ 0)
  if newline ∈ text then
    let line := text.takeWhile (· ≠ newline)
    if room ≤ line.length then
      .done none dbio
    else if bufpt + line.length < dbio.bufsize then
      .done (some line) { dbio with bufpt := some (bufpt + line.length + 1) }
    else
      .done (some line) { dbio with
        bufpt := none
        readpt := 0
        readsize := firstRead dbio.size dbio.bufsize }
  else if bufpt = 0 then
    .done none dbio
  else
    let remain := dbio.bufsize - 1 - bufpt
    .again { dbio with
      buf := (dbio.buf.drop bufpt).take remain ++ dbio.buf.drop remain
      bufpt := none
      readpt := remain
      readsize :=
        if dbio.size < dbio.bufsize - remain then dbio.size else dbio.bufsize - remain - 1 }

/-- A turn of the loop. -/
def turn (room : Nat) (dbio : Dbio) : Turn :=
  match dbio.bufpt with
  | some bufpt => searchLine room dbio bufpt
  | none =>
    match refill dbio with
    | none => .done none dbio
    | some dbio => searchLine room dbio 0

/-- `cli_dbgets` with `usebuf`; the loop goes round at most once. -/
def cliDbgets (room : Nat) (dbio : Dbio) : Option Line × Dbio :=
  match turn room dbio with
  | .done line dbio => (line, dbio)
  | .again dbio =>
    match turn room dbio with
    | .done line dbio => (line, dbio)
    | .again dbio => (none, dbio)

/-- `fgets` on a file with the bytes that are left. -/
def fgets (room : Nat) (file : List UInt8) : Option Line × List UInt8 :=
  if file = [] then
    (none, [])
  else
    let read := file.take (room - 1)
    let line := if newline ∈ read then read.takeWhile (· ≠ newline) ++ [newline] else read
    (some line, file.drop line.length)

/-- What a call returns after some calls, all of them up to the first `NULL`. -/
def nthLine {σ : Type} (get : σ → Option Line × σ) : Nat → σ → Option Line
  | 0, state => (get state).1
  | n + 1, state =>
    match get state with
    | (none, _) => none
    | (some _, state) => nthLine get n state

end LibClamav.Dbgets
