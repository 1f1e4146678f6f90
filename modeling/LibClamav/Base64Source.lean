import Mathlib.Data.List.Basic

namespace LibClamav.Base64

/-!
# Decoding of base64 lines

`decode`, `decodeLine` and the export loop of message.c for the encoding BASE64.
Up to three characters that do not fill a group are carried from line to line in
the message.  Lines are texts without their terminator; a blank line has none.
-/

/-- `base64Table` -/
def base64Table (c : UInt8) : UInt8 :=
  if 0x41 ≤ c ∧ c ≤ 0x5a then
    c - 0x41
  else if 0x61 ≤ c ∧ c ≤ 0x7a then
    c - 0x61 + 26
  else if 0x30 ≤ c ∧ c ≤ 0x39 then
    c - 0x30 + 52
  else if c = 0x2b then
    62
  else if c = 0x2f then
    63
  else if c = 0x3d then
    0
  else
    255

/-- `base64` -/
def base64 (c : UInt8) : UInt8 :=
  if base64Table c = 255 then 63 else base64Table c

/-- The fields of `message` that `decode` uses. -/
structure Message where
  base64chars : Nat
  base64_1 : UInt8
  base64_2 : UInt8
  base64_3 : UInt8
  deriving Repr, DecidableEq

/-- `(b1 << 2) | ((b2 >> 4) & 0x3)` -/
def firstByte (b1 b2 : UInt8) : UInt8 := b1 <<< 2 ||| ((b2 >>> 4) &&& 0x3)

/-- `(b2 << 4) | ((b3 >> 2) & 0xF)` -/
def secondByte (b2 b3 : UInt8) : UInt8 := b2 <<< 4 ||| ((b3 >>> 2) &&& 0xf)

/-- `(b3 << 6) | (b4 & 0x3F)` -/
def thirdByte (b3 b4 : UInt8) : UInt8 := b3 <<< 6 ||| (b4 &&& 0x3f)

section

variable (decoder : UInt8 → UInt8)

/-- The fast loop; it reads groups of four characters without a test. -/
def decodeFast : List UInt8 → Option (List UInt8)
  | [] => some []
  | c1 :: c2 :: c3 :: c4 :: rest => do
      let out ← decodeFast rest
      return firstByte (decoder c1) (decoder c2) :: secondByte (decoder c2) (decoder c3) ::
          thirdByte (decoder c3) (decoder c4) :: out
  | _ => none

/-- `if(m->base64chars) { m->base64chars--; b = cb; } else b = decoder(*in++);` -/
def nextChar
    (m : Message)
    (carried : UInt8) :
    List UInt8 → Option (UInt8 × Message × List UInt8)
  | [] => none
  | c :: rest =>
    if m.base64chars ≠ 0 then
      some (carried, { m with base64chars := m.base64chars - 1 }, c :: rest)
    else
      some (decoder c, m, rest)

/-- The slow loop: the message and the bytes. -/
def decodeSlow (cb1 cb2 cb3 : UInt8) : Nat → Message → List UInt8 → Option (Message × List UInt8)
  | 0, _, _ => none
  | fuel + 1, m, input =>
    if input = [] then
      some (m, [])
    else do
      let (b1, m, input) ← nextChar decoder m cb1 input
      if input = [] then
        return ({ m with base64_1 := b1, base64chars := 1 }, [])
      let (b2, m, input) ← nextChar decoder m cb2 input
      if input = [] then
        return ({ m with base64_2 := b2, base64_1 := b1, base64chars := 2 }, [])
      let (b3, m, input) ← nextChar decoder m cb3 input
      if input = [] then
        return ({ m with
          base64_3 := b3, base64_2 := b2, base64_1 := b1, base64chars := 3 }, [])
      let (b4, input) ← input.head?.map fun c => (decoder c, input.tail)
      let (m, out) ← decodeSlow cb1 cb2 cb3 fuel m input
      return (m, firstByte b1 b2 :: secondByte b2 b3 :: thirdByte b3 b4 :: out)

/-- The characters carried over: `cb1`, `cb2` and `cb3`. -/
def carriedOver (m : Message) : UInt8 × UInt8 × UInt8 :=
  (if 1 ≤ m.base64chars then m.base64_1 else 0,
    if 2 ≤ m.base64chars then m.base64_2 else 0,
    if 3 ≤ m.base64chars then m.base64_3 else 0)

/-- `decode` on a line. -/
def decode
    (m : Message)
    (input : List UInt8)
    (isFast : Bool) :
    Option (Message × List UInt8) :=
  let (cb1, cb2, cb3) := carriedOver m
  if isFast && m.base64chars == 0 then do
    let out ← decodeFast decoder input
    return (m, out)
  else
    decodeSlow decoder cb1 cb2 cb3 (input.length + 1) m input

end

/-- `decode` with `in == NULL`: what is left is written out. -/
def decodeFlush (m : Message) : List UInt8 :=
  let (b1, b2, b3) := carriedOver m
  let nbytes :=
    if m.base64chars = 3 then 3
    else if m.base64chars = 2 ∧ b2 ≠ 0 then 2
    else 1
  match nbytes with
  | 3 =>
    firstByte b1 b2 :: secondByte b2 b3 :: (if b3 &&& 0x3 ≠ 0 then [thirdByte b3 0] else [])
  | 2 => firstByte b1 b2 :: (if b2 <<< 4 ≠ 0 then [b2 <<< 4] else [])
  | _ => [b1 <<< 2]

/-- `base64Flush` -/
def base64Flush (m : Message) : Option (List UInt8) × Message :=
  if m.base64chars ≠ 0 then
    (some (decodeFlush m), { m with base64chars := 0 })
  else
    (none, m)

/-- `sanitiseBase64` -/
def sanitiseBase64 (text : List UInt8) : List UInt8 := text.filter fun c => base64Table c != 255

/-- `decodeLine` for BASE64. -/
def decodeLine
    (m : Message)
    (line : Option (List UInt8)) :
    Option (Message × List UInt8) :=
  match line with
  | none => some (m, [])
  | some line =>
    let copy := sanitiseBase64 (line.takeWhile (· != 0x3d))
    decode base64 m copy (!line.contains 0x3d && copy.length % 4 == 0)

/-- The loop over the lines: the message and what `addData` is given. -/
def exportLines : Message → List (Option (List UInt8)) → Option (Message × List (List UInt8))
  | m, [] => some (m, [])
  | m, line :: lines => do
      let (m, data) ← decodeLine m line
      let (m, added) ← exportLines m lines
      return (m, if data = [] then added else data :: added)

/-- `messageExport` of a body in BASE64: what `addData` is given, in order. -/
def messageExport
    (m : Message)
    (lines : List (Option (List UInt8))) :
    Option (List (List UInt8)) := do
  let (m, added) ← exportLines m lines
  return added ++ (base64Flush m).1.toList

end LibClamav.Base64
