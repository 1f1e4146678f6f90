import LibClamav.UrlEscapes

namespace LibClamav.Phish

open CheckedBuffer

/-!
# Canonical URLs

`cli_url_canon` works on a copy of the URL in a buffer of 1027 bytes: it decodes
the escapes behind the scheme and the user name, skips to the host, removes dot
segments, escapes again what is not printable, and puts a terminator between
host and path.  All accesses are checked.
-/

/-- `URL_MAX_LEN` -/
def urlMaxLen : Nat := 1024

/-- `strchr`, for a character that is not the terminator. -/
def strchr (buf : List UInt8) (i : Nat) (c : UInt8) : Option (Option Nat) := do
  let p ← find (fun b => b == c || b == 0) buf i
  let b ← read buf p
  return if b = c then some p else none

/-- `strcspn` -/
def strcspn (buf : List UInt8) (i : Nat) (reject : List UInt8) : Option Nat := do
  let p ← find (fun b => reject.contains b || b == 0) buf i
  return p - i

/-- `tolower` -/
def tolower (b : UInt8) : UInt8 :=
  if 0x41 ≤ b ∧ b ≤ 0x5a then b + 0x20 else b

/-- `str_make_lowercase` -/
def strMakeLowercase : Nat → List UInt8 → Nat → Option (List UInt8)
  | 0, buf, _ => some buf
  | len + 1, buf, str => do
      let b ← read buf str
      let buf ← write buf str (tolower b)
      strMakeLowercase len buf (str + 1)

/-- `while((host_begin < urlend) && *host_begin == '/') ++host_begin;` -/
def skipSlashes : Nat → List UInt8 → Nat → Nat → Option Nat
  | 0, _, _, _ => none
  | fuel + 1, buf, hostBegin, urlend =>
    if hostBegin < urlend then do
      if (← read buf hostBegin) = 0x2f then
        skipSlashes fuel buf (hostBegin + 1) urlend
      else
        some hostBegin
    else
      some hostBegin

/-- `while(*host_begin == '.' && host_begin < urlend) ++host_begin;` -/
def skipDots : Nat → List UInt8 → Nat → Nat → Option Nat
  | 0, _, _, _ => none
  | fuel + 1, buf, hostBegin, urlend => do
      if (← read buf hostBegin) = 0x2e ∧ hostBegin < urlend then
        skipDots fuel buf (hostBegin + 1) urlend
      else
        some hostBegin

/-- What stands at the cursor of the loop over the segments. -/
inductive Segment where
  /-- `/./` -/
  | dot
  /-- `/../`, or `/..` before a null byte -/
  | dotdot
  | other
  deriving Repr, DecidableEq

/-- The tests of the loop over the segments, up to the one of `last`. -/
def segmentAt (buf : List UInt8) (p urlend : Nat) : Option Segment :=
  if p + 2 < urlend then do
    if (← read buf p) = 0x2f then
      if (← read buf (p + 1)) = 0x2e then
        let c ← read buf (p + 2)
        if c = 0x2f then
          some .dot
        else if c = 0x2e then
          let d ← read buf (p + 3)
          some (if d = 0x2f ∨ d = 0 then .dotdot else .other)
        else
          some .other
      else
        some .other
    else
      some .other
  else
    some .other

/-- `if(src < urlend) memmove(dst, src, urlend - src)` -/
def moveRest (buf : List UInt8) (dst src urlend : Nat) : Option (List UInt8) :=
  if src < urlend then
    move buf dst src (urlend - src)
  else
    some buf

/-- The removal of the segment at the cursor: the buffer and `urlend`. -/
def removeSegment
    (buf : List UInt8)
    (p urlend : Nat)
    (last : Option Nat) :
    Option (List UInt8 × Nat) := do
  match ← segmentAt buf p urlend, last with
  | .dot, _ =>
    let buf ← moveRest buf (p + 1) (p + 3) urlend
    some (buf, urlend - 2)
  | .dotdot, some last =>
    let buf ← moveRest buf (last + 1) (p + 4) urlend
    some (buf, urlend - (3 + (p - last)))
  | _, _ => some (buf, urlend)

/-- The loop over the segments. -/
def dotSegments : Nat → List UInt8 → Nat → Nat → Option Nat → Option (List UInt8 × Nat)
  | 0, _, _, _, _ => none
  | fuel + 1, buf, p, urlend, last =>
    if p < urlend then do
      let (buf, urlend) ← removeSegment buf p urlend last
      let c ← read buf p
      dotSegments fuel buf (p + 1) urlend (if c = 0x2f then some p else last)
    else
      some (buf, urlend)

/-- The characters that are escaped again. -/
def needsEscape (c : UInt8) : Bool := c ≤ 32 || 127 ≤ c || c == 0x25 || c == 0x23

/-- `hexchars` -/
def hexchar (digit : UInt8) : UInt8 :=
  if digit < 10 then 0x30 + digit else 0x37 + digit

/-- The loop that escapes: the buffer and `p`. -/
def escapeLoop : Nat → List UInt8 → Nat → Nat → Nat → Option (List UInt8 × Nat)
  | 0, _, _, _, _ => none
  | fuel + 1, buf, url, p, urlend =>
    if p < urlend ∧ p + 2 < url + urlMaxLen ∧ urlend < urlMaxLen then do
      let c ← read buf p
      if needsEscape c then
        let buf ← move buf (p + 3) (p + 1) (urlend - p - 1)
        let buf ← write buf p 0x25
        let buf ← write buf (p + 1) (hexchar (c >>> 4))
        let buf ← write buf (p + 2) (hexchar (c &&& 0xf))
        escapeLoop fuel buf url (p + 3) (urlend + 2)
      else
        escapeLoop fuel buf url (p + 1) urlend
    else
      some (buf, p)

/-- The buffer and the cursors `url`, `host_begin` and `urlend`. -/
structure CanonState where
  buf : List UInt8
  url : Nat
  hostBegin : Nat
  urlend : Nat
  deriving Repr, DecidableEq

/-- The buffer behind `strncpy`, with its last three bytes. -/
def copyUrl (inurl : List UInt8) : List UInt8 :=
  inurl.take urlMaxLen ++ List.replicate (urlMaxLen - inurl.length) 0 ++ [0, 0, 0]

/-- Decoding and the way to the host, from `host_begin` on. -/
def canonHost (buf : List UInt8) (hostBegin urlend : Nat) : Option CanonState := do
  let (buf, url, urlend) ← strHexToChar buf hostBegin urlend
  let hostBegin ← skipSlashes (urlend + 1) buf url urlend
  let hostBegin ← skipDots (urlend + 1) buf hostBegin urlend
  return ⟨buf, url, hostBegin, urlend⟩

/-- Removal of dot segments. -/
def canonDots (state : CanonState) : Option CanonState := do
  let last ← strchr state.buf state.hostBegin 0x2f
  let (buf, urlend) ←
    dotSegments (state.urlend + 1) state.buf state.hostBegin state.urlend last
  let buf ← write buf urlend 0
  return { state with buf := buf, urlend := urlend }

/-- Escaping, up to `urlend = p`. -/
def canonEscape (state : CanonState) : Option CanonState := do
  let (buf, p) ←
    escapeLoop (state.urlend + 1) state.buf state.url state.hostBegin state.urlend
  let buf ← write buf p 0
  return { state with buf := buf, urlend := p }

/-- The host and path that are returned, `path` as a place in the buffer. -/
structure Canon where
  buf : List UInt8
  host : Nat
  hostLen : Nat
  path : Option Nat
  pathLen : Nat
  deriving Repr, DecidableEq

/-- The anchor is cut off: the buffer and `path_len`. -/
def cutAnchor
    (buf : List UInt8)
    (pathBegin pathLen : Nat) :
    Option (List UInt8 × Nat) := do
  match ← strchr buf pathBegin 0x23 with
  | some p =>
    let buf ← write buf p 0
    some (buf, p - pathBegin)
  | none => some (buf, pathLen)

/-- The terminator between host and path, and the results. -/
def splitPath (state : CanonState) : Option Canon := do
  let len := state.urlend - state.url
  let hostLen ← strcspn state.buf state.hostBegin [0x3a, 0x2f, 0x3f]
  let pathBegin := state.hostBegin + hostLen
  let (buf, pathBegin) ←
    if hostLen ≤ len then do
      let buf ← move state.buf (pathBegin + 2) (pathBegin + 1) (len - hostLen)
      let buf ← write buf pathBegin 0x2f
      let buf ← write buf (pathBegin + 1) 0
      some (buf, pathBegin + 2)
    else
      some (state.buf, state.url + len)
  let (buf, path, pathLen) ←
    if pathBegin ≤ state.url + len then do
      let (buf, pathLen) ←
        cutAnchor buf pathBegin (state.url + len - pathBegin + 1)
      some (buf, some pathBegin, pathLen)
    else
      some (buf, none, 0)
  let buf ← strMakeLowercase hostLen buf state.hostBegin
  return ⟨buf, state.hostBegin, hostLen, path, pathLen⟩

/-- The URL before it is escaped; nothing without a scheme. -/
def canonSegments (inurl : List UInt8) : Option (Option CanonState) := do
  let buf := copyUrl inurl
  match ← strchr buf 0 0x3a with
  | none => return none
  | some colon =>
    let hostBegin ←
      match ← strchr buf (colon + 1) 0x40 with
      | some p => some (p + 1)
      | none => some (colon + 1)
    let state ← canonHost buf hostBegin inurl.length
    let state ← canonDots state
    return some state

/-- The URL before the terminator is inserted. -/
def canonText (inurl : List UInt8) : Option (Option CanonState) := do
  match ← canonSegments inurl with
  | none => return none
  | some state =>
    let state ← canonEscape state
    return some state

/--
`cli_url_canon` with the buffer of `url_hash_match`: the inner option is
`CL_PHISH_CLEAN`, the outer one an access outside the buffer.
-/
def cliUrlCanon (inurl : List UInt8) : Option (Option Canon) := do
  match ← canonText inurl with
  | none => return none
  | some state =>
    let canon ← splitPath state
    return some canon

/-- The host that is returned. -/
def Canon.hostText (canon : Canon) : List UInt8 := (canon.buf.drop canon.host).take canon.hostLen

/-- The path that is returned, without its first slash. -/
def Canon.pathText (canon : Canon) : List UInt8 :=
  match canon.path with
  | some path => (canon.buf.drop path).take canon.pathLen
  | none => []

end LibClamav.Phish
