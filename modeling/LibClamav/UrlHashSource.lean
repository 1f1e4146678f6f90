import LibClamav.BmSource
import LibClamav.UrlCanon

namespace LibClamav.Phish

open CheckedBuffer Bm

/-!
# Lookups of URL hashes

`url_hash_match` of phishcheck.c looks up the hashes of host suffixes and path
prefixes of a canonical URL.  The hash itself is a parameter.
-/

/-- `enum phish_status`; `nodecision` is also `CL_SUCCESS`. -/
inductive PhishStatus where
  | nodecision
  | clean
  | cloakedUiu
  | numericIp
  | hexUrl
  | cloakedNull
  | sslSpoof
  | nomatch
  | hash0
  | hash1
  | hash2
  deriving Repr, DecidableEq

/-- `COMPONENTS` -/
def components : Nat := 4

/-- The last place of a byte in a text. -/
def lastOf (c : UInt8) : List UInt8 → Option Nat
  | [] => none
  | a :: rest =>
    match lastOf c rest with
    | some i => some (i + 1)
    | none => if a = c then some 0 else none

/-- `strrchr` -/
def strrchr (buf : List UInt8) (str : Nat) (c : UInt8) : Option (Option Nat) := do
  let stop ← find (· == 0) buf str
  return (lastOf c ((buf.drop str).take (stop - str))).map (str + ·)

/--
`do { --component; } while(*component != '.' && component > host_begin);` and
the test behind it.
-/
def previousDot (buf : List UInt8) (hostBegin : Nat) : Nat → Option (Option Nat)
  | 0 => none
  | component + 1 => do
      if (← read buf component) = 0x2e then
        some (some component)
      else if hostBegin < component then
        previousDot buf hostBegin component
      else
        some none

/-- The rest of `lp`, in the order in which its entries are used. -/
def hostLoop
    (buf : List UInt8)
    (hostBegin : Nat) :
    Nat → Option Nat → Option (List Nat)
  | j + 1, some component => do
      match ← previousDot buf hostBegin component with
      | some dot =>
        let rest ← hostLoop buf hostBegin j (some dot)
        return (dot + 1) :: rest
      | none => return [hostBegin]
  | _, _ => some [hostBegin]

/-- `lp[COMPONENTS]`, `lp[COMPONENTS - 1]` and so on, down to `lp[j]`. -/
def hostSuffixes (canon : Canon) : Option (List Nat) := do
  let component ← strrchr canon.buf canon.host 0x2e
  hostLoop canon.buf canon.host components component

/-- The entries of `pp` behind one, up to `COMPONENTS + 2`. -/
def pathLoop (buf : List UInt8) (pathBegin : Nat) : Nat → Nat → Option (List Nat)
  | 0, _ => some []
  | free + 1, previous => do
      match ← strchr buf (pathBegin + previous + 1) 0x2f with
      | some p =>
        let rest ← pathLoop buf pathBegin free (p - pathBegin)
        return (p - pathBegin) :: rest
      | none => return []

/-- `pp[0]`, `pp[1]` and so on, up to `pp[k - 1]`. -/
def pathPrefixes (canon : Canon) : Option (List Nat) :=
  match canon.path with
  | none => some [canon.pathLen]
  | some pathBegin =>
    if canon.pathLen = 0 then
      some [0]
    else do
      let query ← strcspn canon.buf pathBegin [0x3f]
      let whole :=
        if query ≠ canon.pathLen then [canon.pathLen, query]
        else [canon.pathLen]
      let rest ←
        pathLoop canon.buf pathBegin (components + 1 - whole.length) 0
      return whole ++ 0 :: rest

/-- The bytes of `lp[ji]` and of `path_begin` that one lookup hashes. -/
def lookupText (canon : Canon) (lp pp : Nat) : List UInt8 :=
  (canon.buf.drop lp).take (canon.host + canon.hostLen - lp + 1) ++ canon.pathText.take pp

/-- The texts in the order of the nested loops. -/
def lookupTexts (canon : Canon) : Option (List (List UInt8)) := do
  let lps ← hostSuffixes canon
  let pps ← pathPrefixes canon
  return pps.reverse.flatMap fun pp => lps.map fun lp => lookupText canon lp pp

/-- The hash tables of `struct regex_matcher`. -/
structure HashLists where
  sha256Hashes : BmRoot
  hostkeyPrefix : BmRoot

/-- `cli_bm_scanbuff(bytes, ..., root, 0, NULL, NULL)` -/
def scanHash (root : BmRoot) (bytes : List UInt8) : BmResult :=
  (cliBmScanbuff root { len := 0 } bytes 0 none).1

/-- `switch(*virname)` -/
def hashStatus (patt : BmPatt) : PhishStatus :=
  match patt.virname.head? with
  | some 'W' => .nodecision
  | some '1' => .hash1
  | some '2' => .hash2
  | _ => .hash0

section

-- SHA-256
variable (sha : List UInt8 → List UInt8)

def fullMatch (lists : HashLists) (text : List UInt8) : PhishStatus :=
  match scanHash lists.sha256Hashes (sha text) with
  | .virus patt => hashStatus patt
  | _ => .nodecision

/-- `prefix matched` -/
def prefixMatches (lists : HashLists) (text : List UInt8) : Bool :=
  match scanHash lists.hostkeyPrefix ((sha text).take 4) with
  | .virus _ => true
  | _ => false

/-- `hash_match`, and `prefix_matched` behind it. -/
def hashMatch
    (lists : HashLists)
    (text : List UInt8)
    (needPrefixmatch prefixMatched : Bool) :
    PhishStatus × Bool :=
  if lists.sha256Hashes.bmPatterns = 0 then
    (.nodecision, prefixMatched)
  else if needPrefixmatch then
    if prefixMatches sha lists text then
      (fullMatch sha lists text, true)
    else
      (.nodecision, prefixMatched)
  else
    (fullMatch sha lists text, prefixMatched)

/-- The nested loops, from one lookup on. -/
def matchLoop (lists : HashLists) : List (List UInt8) → Nat → Bool → PhishStatus
  | [], _, _ => .nodecision
  | text :: rest, count, prefixMatched =>
    let usesPrefixes := lists.hostkeyPrefix.bmPatterns ≠ 0
    let needPrefixmatch := decide (count < 2) && !prefixMatched &&
      decide usesPrefixes
    let (rc, prefixMatched) :=
      hashMatch sha lists text needPrefixmatch prefixMatched
    if rc ≠ .nodecision then
      rc
    else if count + 1 = 2 ∧ prefixMatched = false ∧ usesPrefixes then
      .nodecision
    else
      matchLoop lists rest (count + 1) prefixMatched

/-- `url_hash_match`; nothing is an access outside the buffer. -/
def urlHashMatch (lists : HashLists) (inurl : List UInt8) : Option PhishStatus :=
  if lists.sha256Hashes.bmPatterns = 0 then
    some .nodecision
  else do
    match ← cliUrlCanon inurl with
    | none => return .clean
    | some canon =>
      let texts ← lookupTexts canon
      return matchLoop sha lists texts 0 false

end

/-- The matcher of `init_regex_list`, without hashes. -/
def initHashLists : HashLists where
  sha256Hashes := cliBmInit { bmShift := fun _ => 0, bmSuffix := fun _ => [] }
  hostkeyPrefix := cliBmInit { bmShift := fun _ => 0, bmSuffix := fun _ => [] }

/-- The flag of the pattern that the table has for a digest. -/
def flagOf (root : BmRoot) (digest : List UInt8) : Option Char :=
  match scanHash root digest with
  | .virus patt => patt.virname.head?
  | _ => none

/-- `add_hash`, for a pattern of the length it expects. -/
def addHash
    (lists : HashLists)
    (pattern : List UInt8)
    (fl : Char)
    (isPrefix : Bool) :
    Except ClError HashLists :=
  let patt : BmPatt :=
    { pattern := pattern, length := if isPrefix then 4 else 32, virname := [fl] }
  if fl ≠ 'W' ∧ isPrefix = false ∧ flagOf lists.sha256Hashes pattern = some 'W' then
    .ok lists
  else if isPrefix then
    match cliBmAddpatt lists.hostkeyPrefix patt ['*'] with
    | .ok root => .ok { lists with hostkeyPrefix := root }
    | .error _ => .error .emalfdb
  else
    match cliBmAddpatt lists.sha256Hashes patt ['*'] with
    | .ok root => .ok { lists with sha256Hashes := root }
    | .error _ => .error .emalfdb

/-- The lists that calls of `add_hash` make. -/
inductive HashesLoaded : HashLists → Prop where
  | init : HashesLoaded initHashLists
  | add {lists added : HashLists} {pattern : List UInt8} {fl : Char} {short : Bool}
      (loaded : HashesLoaded lists)
      (isLength : pattern.length = if short then 4 else 32)
      (adds : addHash lists pattern fl short = .ok added) :
      HashesLoaded added

end LibClamav.Phish
