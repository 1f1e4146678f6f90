import LibClamav.UrlHashSource

namespace LibClamav.Phish

open CheckedBuffer

/-!
# Cleaning links and finding their hosts

`cleanupURL`, `get_host` and `url_get_host` of phishcheck.c.  Links are edited in
place between the pointers `begin` and `end`; in the buffers `stop` is the place
behind `end`.  Links and hosts that are not edited are texts without their
terminator.
-/

/-- `isspace` -/
def isspace (b : UInt8) : Bool := b == 0x20 || (0x09 ≤ b && b ≤ 0x0d)

/-- `isalnum` -/
def isalnum (b : UInt8) : Bool :=
  (0x30 ≤ b && b ≤ 0x39) || (0x41 ≤ b && b ≤ 0x5a) || (0x61 ≤ b && b ≤ 0x7a)

/-- `fix32((*begin)&0x7f)` -/
def clearMsbChar (b : UInt8) : UInt8 :=
  if b &&& 0x7f < 32 then 32 else b &&& 0x7f

/-- `clear_msb` -/
def clearMsb (text : List UInt8) : List UInt8 := text.map clearMsbChar

/-- `while(isspace(*begin)) begin++;` -/
def skipSpaces : Nat → List UInt8 → Nat → Option Nat
  | 0, _, _ => none
  | fuel + 1, buf, start => do
      if isspace (← read buf start) then
        skipSpaces fuel buf (start + 1)
      else
        some start

/-- `while(isspace(*end)) end--;` -/
def trimSpaces (buf : List UInt8) : Nat → Option Nat
  | 0 => none
  | stop + 1 => do
      if isspace (← read buf stop) then
        trimSpaces buf stop
      else
        some (stop + 1)

/-- `!strncmp(str, what, strlen(what))` -/
def startsAt (buf : List UInt8) (str : Nat) : List UInt8 → Option Bool
  | [] => some true
  | c :: what => do
      if (← read buf str) = c then
        startsAt buf (str + 1) what
      else
        some false

/-- `str_replace` -/
def strReplace (buf : List UInt8) (str stop : Nat) (c r : UInt8) : List UInt8 :=
  buf.mapIdx fun i b => if str ≤ i ∧ i < stop ∧ b = c then r else b

/-- The loop of `str_strip` at the end of the text. -/
def stripTrailing (buf what : List UInt8) (sbegin : Nat) : Nat → Nat → Option Nat
  | 0, _ => none
  | fuel + 1, stop =>
    if sbegin < stop - what.length then do
      if ← startsAt buf (stop - what.length) what then
        stripTrailing buf what sbegin fuel (stop - what.length)
      else
        some stop
    else
      some stop

/-- The loops of `str_strip` inside the text. -/
def stripInside (what : List UInt8) : Nat → List UInt8 → Nat → Nat → Option (List UInt8 × Nat)
  | 0, _, _, _ => none
  | fuel + 1, buf, sbegin, stop =>
    if sbegin + what.length < stop then do
      if ← startsAt buf sbegin what then
        let src := sbegin + what.length
        let buf ← move buf sbegin src (stop - src)
        stripInside what fuel buf sbegin (stop - what.length)
      else
        stripInside what fuel buf (sbegin + 1) stop
    else
      some (buf, stop)

/-- The buffer, `begin` and the place behind `end`. -/
structure Stretch where
  buf : List UInt8
  start : Nat
  stop : Nat
  deriving Repr, DecidableEq

/-- `str_strip`; no more than one copy of the text is stripped at its start. -/
def strStrip (state : Stretch) (what : List UInt8) : Option Stretch :=
  if state.stop ≤ state.start + 1 then
    some state
  else do
    let terminator ← find (· == 0) state.buf state.start
    if terminator - state.start < what.length then
      return state
    let leads ← startsAt state.buf state.start what
    let start := if leads then state.start + what.length else state.start
    let stop ← stripTrailing state.buf what start (state.stop + 1) state.stop
    let (buf, stop) ← stripInside what (2 * stop + 1) state.buf (start + 1) stop
    return ⟨buf, start, stop⟩

/-- `str_hex_to_char` with `end` at the last byte of the text. -/
def hexStretch (state : Stretch) : Option Stretch :=
  if state.stop = 0 then
    some state
  else do
    let (buf, start, last) ← strHexToChar state.buf state.start (state.stop - 1)
    return ⟨buf, start, last + 1⟩

/-- `string_assign_dup(..., begin, end + 1)` -/
def Stretch.text (state : Stretch) : List UInt8 :=
  ((state.buf.drop state.start).take (state.stop - state.start)).takeWhile (· != 0)

/-- `while(host_begin && (host_begin < end) && (host_begin[1] == '/'))` -/
def overSlashes : Nat → List UInt8 → Nat → Nat → Option Nat
  | 0, _, _, _ => none
  | fuel + 1, buf, hostBegin, stop =>
    if hostBegin + 1 < stop then do
      if (← read buf (hostBegin + 1)) = 0x2f then
        overSlashes fuel buf (hostBegin + 1) stop
      else
        some hostBegin
    else
      some hostBegin

/-- The URL is cut after its host, and the host is made lower case. -/
def cutHost (state : Stretch) : Option Stretch := do
  let hostBegin ←
    match ← strchr state.buf state.start 0x3a with
    | none => some state.start
    | some colon =>
      (overSlashes (state.stop + 1) state.buf colon state.stop).map (· + 1)
  let hostLen ← strcspn state.buf hostBegin [0x3a, 0x2f, 0x3f]
  let (hostLen, stop) :=
    if state.stop < hostBegin + hostLen then
      (state.stop - hostBegin, state.stop)
    else
      (hostLen, hostBegin + hostLen)
  let buf ← write state.buf (hostBegin + hostLen) 0
  let buf ← strMakeLowercase hostLen buf hostBegin
  return ⟨buf, state.start, stop⟩

/-- `&lt` and `&gt`; a `;` behind them is a space by then. -/
def ltText : List UInt8 := [0x26, 0x6c, 0x74]
def gtText : List UInt8 := [0x26, 0x67, 0x74]

/-- What is done to both links behind the test for names of products. -/
def cleanStretch (state : Stretch) : Option Stretch := do
  let buf := strReplace state.buf state.start state.stop 0x5c 0x2f
  let state ← cutHost { state with buf := buf }
  let buf := strReplace state.buf state.start state.stop 0x3c 0x20
  let buf := strReplace buf state.start state.stop 0x3e 0x20
  let buf := strReplace buf state.start state.stop 0x22 0x20
  let buf := strReplace buf state.start state.stop 0x3b 0x20
  let state ← strStrip { state with buf := buf } ltText
  let state ← strStrip state gtText
  hexStretch state

/-- `.net`, `ado.net` and `asp.net` -/
def productNames : List (List UInt8) :=
  [[0x2e, 0x6e, 0x65, 0x74], [0x61, 0x64, 0x6f, 0x2e, 0x6e, 0x65, 0x74],
    [0x61, 0x73, 0x70, 0x2e, 0x6e, 0x65, 0x74]]

/-- `cleanupURL` up to the two kinds of links; nothing is left of some. -/
def cleanupStart (url : List UInt8) : Option (Option Stretch) := do
  let buf := clearMsb url ++ [0]
  let start ← skipSpaces (buf.length + 1) buf 0
  let terminator ← find (· == 0) buf start
  if terminator - start ≤ 1 then
    return none
  let stop ← trimSpaces buf terminator
  let isProduct ← productNames.mapM (startsAt buf start)
  if isProduct.any id then
    return none
  let state ← cleanStretch ⟨buf, start, stop⟩
  return some state

/-- `cleanupURL` for the real link. -/
def cleanupReal (url : List UInt8) : Option (List UInt8) := do
  match ← cleanupStart url with
  | none => return []
  | some state =>
    let state ← strStrip state [0x20]
    return state.text

/-- `while((begin <= end) && (begin[0]==' ')) begin++;` -/
def skipBlanks : Nat → List UInt8 → Nat → Nat → Option Nat
  | 0, _, _, _ => none
  | fuel + 1, buf, start, stop =>
    if start < stop then do
      if (← read buf start) = 0x20 then
        skipBlanks fuel buf (start + 1) stop
      else
        some start
    else
      some start

/-- `while((begin <= end) && (end[0]==' ')) end--;` -/
def trimBlanks (buf : List UInt8) (start : Nat) : Nat → Option Nat
  | 0 => some 0
  | stop + 1 =>
    if start < stop + 1 then do
      if (← read buf stop) = 0x20 then
        trimBlanks buf start stop
      else
        some (stop + 1)
    else
      some (stop + 1)

/-- `while(!isalnum(sbegin[0]&0xff) && sbegin <= send) sbegin++;` -/
def skipGarbage : Nat → List UInt8 → Nat → Nat → Option Nat
  | 0, _, _, _ => none
  | fuel + 1, buf, start, stop => do
      let c ← read buf start
      if !isalnum c && decide (start < stop) then
        skipGarbage fuel buf (start + 1) stop
      else
        some start

/-- `while(!isalnum(send[0]&0xff) && send >= sbegin) send--;` -/
def trimGarbage (buf : List UInt8) (start : Nat) : Nat → Option Nat
  | 0 => none
  | stop + 1 => do
      let c ← read buf stop
      if !isalnum c && decide (start ≤ stop) then
        trimGarbage buf start stop
      else
        some (stop + 1)

/-- `str_fixup_spaces` -/
def strFixupSpaces (state : Stretch) : Option Stretch :=
  if state.stop < state.start + 1 then
    some state
  else do
    let state ← strStrip state [0x20]
    let start ← skipGarbage (state.stop + 2) state.buf state.start state.stop
    let stop ← trimGarbage state.buf start state.stop
    let c ← read state.buf stop
    return ⟨state.buf, start, if c = 0x2f then stop + 1 else stop⟩

/-- `cleanupURL` for the displayed link: the link and `pre_URL`. -/
def cleanupDisplay (url : List UInt8) : Option (List UInt8 × List UInt8) := do
  match ← cleanupStart url with
  | none => return ([], [])
  | some state =>
    let start ← skipBlanks (state.stop + 1) state.buf state.start state.stop
    let stop ← trimBlanks state.buf start state.stop
    let trimmed : Stretch := ⟨state.buf, start, stop⟩
    let fixed ← strFixupSpaces trimmed
    return (fixed.text, trimmed.text)

/-- The bits of `phishy`. -/
structure Phishy where
  usernameInUrl : Bool := false
  numericIp : Bool := false
  realIsMailto : Bool := false
  domainListed : Bool := false
  deriving Repr, DecidableEq

/-- `strstr` -/
def strstr (what : List UInt8) : List UInt8 → Option Nat
  | [] => if what = [] then some 0 else none
  | c :: text =>
    if what.isPrefixOf (c :: text) then
      some 0
    else
      (strstr what text).map (· + 1)

/-- `start + strcspn(start,":/?")` -/
def hostEnd (url : List UInt8) (start : Nat) : Nat :=
  start + ((url.drop start).takeWhile fun c => ! [0x3a, 0x2f, 0x3f].contains c).length

/-- The words of iana_tld.h, in the order of the table. -/
def tldWords : List String :=
  ["md", "mv", "cd", "mz", "cv", "ad", "cz", "mu", "az", "cu", "nz", "au", "mo", "mobi", "nu",
    "co", "com", "coop", "fo", "ao", "ms", "no", "me", "as", "asia", "my", "ae", "aero", "cy",
    "ne", "net", "mr", "cr", "fr", "ar", "arpa", "td", "nr", "tv", "mc", "tz", "cc", "mx", "ac",
    "cx", "lv", "nc", "ax", "to", "lu", "ml", "cl", "org", "mh", "al", "ch", "nl", "tel", "sd",
    "sv", "ls", "sz", "jo", "jobs", "ru", "su", "tr", "ly", "ro", "so", "je", "lr", "tc", "ma",
    "rs", "ca", "cat", "re", "se", "lc", "na", "name", "sy", "qa", "gd", "tl", "sr", "th", "mg",
    "gu", "cg", "ag", "sc", "ng", "gov", "bd", "bv", "id", "bz", "gs", "mk", "ge", "ck", "sl",
    "fk", "gy", "bo", "sh", "io", "gr", "bs", "la", "is", "travel", "be", "ie", "by", "mw", "tg",
    "br", "aw", "ir", "cf", "sa", "af", "gl", "nf", "gh", "tk", "mm", "yu", "cm", "fm", "am",
    "lk", "sg", "ps", "il", "museum", "bh", "pe", "mq", "py", "ye", "aq", "ga", "tw", "pr", "pro",
    "sk", "om", "tf", "mn", "cn", "ws", "xn--g6w251d", "an", "xn--80akhbyknj4f", "ba",
    "xn--0zwm56d", "gg", "tm", "xn--11b5bs3a9aj6g", "hu", "pl", "rw", "mp", "uz", "ph", "lb",
    "bg", "np", "kz", "mil", "jm", "xn--deba0ad", "ci", "fi", "ai", "ni", "us", "sm", "tn", "sb",
    "hr", "uy", "pa", "ke", "xn--zckzah", "gw", "mt", "ky", "xn--jxalpdlp", "gf", "edu", "at",
    "vu", "kr", "tp", "dz", "eu", "pg", "bw", "sn", "xn--hlcj6aya9esc7a", "fj", "gm", "bf", "do",
    "gb", "ve", "es", "li", "jp", "ee", "pk", "de", "gq", "bm", "kh", "im", "bb", "er", "tt",
    "vc", "si", "gn", "ec", "lt", "iq", "ua", "pw", "tj", "za", "pf", "xn--kgbechtv", "bn",
    "xn--hgbk6aj7f53bba", "in", "int", "info", "gp", "st", "ug", "pm", "gi", "kg", "hk", "sj",
    "wf", "va", "uk", "bi", "biz", "gt", "pn", "vg", "eg", "bt", "zw", "it", "kw", "hm", "bj",
    "dk", "zm", "km", "hn", "pt", "yt", "kn", "dm", "kp", "vn", "ki", "xn--9t4b11yi5a", "ht",
    "vi", "et", "dj"]

/-- The words of iana_cctld.h. -/
def cctldWords : List String :=
  ["sv", "sy", "se", "mv", "my", "me", "bv", "by", "be", "cv", "cy", "tv", "ms", "sz", "re", "bs",
    "ae", "mz", "ws", "sc", "st", "bz", "ye", "mc", "mt", "cz", "rs", "mq", "as", "bt", "tz",
    "cc", "az", "tc", "tt", "sm", "lv", "ly", "ac", "at", "mm", "aq", "mf", "bm", "yt", "bf",
    "cm", "ls", "wf", "cf", "tm", "mw", "tf", "am", "je", "bw", "af", "sr", "lc", "lt", "so",
    "mr", "tw", "mo", "br", "rw", "sb", "aw", "bo", "cr", "sd", "co", "tr", "bb", "md", "to",
    "ar", "ro", "bd", "ao", "sg", "mx", "cd", "sa", "mg", "de", "td", "ma", "bg", "cx", "ad",
    "ba", "cg", "jm", "ca", "tg", "ax", "lr", "ag", "dz", "sk", "qa", "sn", "mk", "si", "mn",
    "lb", "gy", "ge", "bn", "ck", "bi", "cn", "tk", "ci", "tn", "jo", "gs", "sj", "an", "dm",
    "la", "ai", "sl", "bj", "ml", "mp", "gt", "bl", "gq", "tj", "cl", "py", "pe", "tl", "lk",
    "tp", "al", "li", "ie", "gm", "do", "ps", "gf", "sh", "ee", "mh", "is", "ne", "bh", "gw",
    "pt", "ch", "es", "ky", "ke", "th", "it", "gr", "uy", "iq", "ve", "su", "nz", "ec", "et",
    "mu", "pm", "gb", "nc", "pf", "kz", "us", "gd", "cu", "im", "jp", "ht", "uz", "zm", "dk",
    "ru", "pw", "au", "gg", "vc", "ga", "om", "yu", "nf", "pr", "zw", "hm", "km", "fm", "ir",
    "dj", "um", "io", "lu", "er", "gn", "kw", "gi", "nr", "id", "no", "pg", "hr", "pa", "kr",
    "fr", "fo", "za", "eg", "gl", "gp", "ng", "pk", "na", "pn", "kg", "in", "ug", "vg", "ua",
    "va", "gh", "ni", "pl", "hk", "hn", "kn", "fk", "ki", "il", "uk", "fi", "vn", "vi", "gu",
    "nl", "np", "fj", "ph", "kp", "eh", "kh", "eu", "nu", "hu", "vu"]

/-- A text is one of the words: a look-up in a perfect hash table. -/
def inWords (words : List String) (text : List UInt8) : Bool :=
  words.any fun word => word.toList.map (fun c => UInt8.ofNat c.toNat) == text

/-- `in_tld_set` -/
def inTldSet (text : List UInt8) : Bool := inWords tldWords text

/-- `in_cctld_set` -/
def inCctldSet (text : List UInt8) : Bool := inWords cctldWords text

/-- `in_tld_set` gets the name behind the last dot with its dot. -/
def knownTld (realhost : List UInt8) : Bool :=
  match lastOf 0x2e realhost with
  | some tld => inTldSet (realhost.drop tld)
  | none => false

/-- The loop over the `@` characters: `start`, `end` and `phishy`. -/
def skipUserNames
    (url : List UInt8) :
    Nat → Nat → Phishy → Nat × Nat × Phishy
  | 0, start, phishy => (start, hostEnd url start, phishy)
  | fuel + 1, start, phishy =>
    match (url.drop start).idxOf? 0x40 with
    | none => (start, hostEnd url start, phishy)
    | some k =>
      let realhost := start + k
      if start ≠ hostEnd url start ∧ hostEnd url start < realhost then
        (start, hostEnd url start, phishy)
      else
        let phishy :=
          if knownTld (url.drop realhost) then
            { phishy with usernameInUrl := true }
          else
            phishy
        skipUserNames url fuel (realhost + 1) phishy

/-- `mailto:` -/
def mailto : List UInt8 := [0x6d, 0x61, 0x69, 0x6c, 0x74, 0x6f, 0x3a]

/-- `get_host`: `*hstart`, `*hend` and `*phishy`. -/
def getHost
    (url : List UInt8)
    (isReal : Bool)
    (phishy : Phishy) :
    Nat × Nat × Phishy :=
  match strstr [0x3a, 0x2f, 0x2f] url with
  | some scheme => skipUserNames url url.length (scheme + 3) phishy
  | none =>
    if mailto.isPrefixOf url then
      if isReal then
        (mailto.length, hostEnd url mailto.length, { phishy with realIsMailto := true })
      else
        skipUserNames url url.length mailto.length phishy
    else if isReal = false ∧ phishy.realIsMailto then
      let behind :=
        (url.takeWhile fun c => ! [0x3a, 0x20].contains c).length + 1
      let start := if behind = url.length + 1 then 0 else behind
      skipUserNames url url.length start phishy
    else
      skipUserNames url url.length 0 phishy

/-- `%d`: white space, a sign and digits. -/
def scanInt (text : List UInt8) : Option (Int × List UInt8) :=
  let text := text.dropWhile isspace
  let (negative, text) :=
    match text with
    | 0x2d :: rest => (true, rest)
    | 0x2b :: rest => (false, rest)
    | _ => (false, text)
  let digits := text.takeWhile fun c => 0x30 ≤ c && c ≤ 0x39
  if digits = [] then
    none
  else
    let value : Nat := digits.foldl (fun n c => 10 * n + (c.toNat - 0x30)) 0
    some (if negative then -(value : Int) else value, text.drop digits.length)

/-- `sscanf(host,"%d.%d.%d.%d%n",...)`: the numbers and what is left. -/
def scanQuad : Nat → List UInt8 → Option (List Int × List UInt8)
  | 0, _ => none
  | 1, text => (scanInt text).map fun (a, rest) => ([a], rest)
  | parts + 2, text =>
    match scanInt text with
    | some (a, 0x2e :: rest) =>
      (scanQuad (parts + 1) rest).map fun (more, rest) => (a :: more, rest)
    | _ => none

/-- `isNumeric` -/
def isNumeric (host : List UInt8) : Bool :=
  if host.length < 7 ∨ 15 < host.length then
    false
  else
    match scanQuad 4 host with
    | some (numbers, []) => numbers.all fun a => 0 ≤ a && a ≤ 256
    | _ => false

/-- The host that `url_get_host` assigns, with its first dot. -/
def assignedHost (url : List UInt8) (start stop : Nat) : List UInt8 :=
  0x2e :: (url.drop start).take (stop - start)

/-- No host, two dots in the real host, a mail address or a space. -/
def invalidHost (host : List UInt8) (isReal : Bool) (phishy : Phishy) : Bool :=
  (isReal && (host.isEmpty || (strstr [0x2e, 0x2e] host).isSome)) ||
    phishy.realIsMailto || host.contains 0x20

/-- What `url_get_host` leaves. -/
structure HostResult where
  status : PhishStatus
  host : List UInt8
  hostStart : Nat
  hostEnd : Nat
  phishy : Phishy
  deriving Repr, DecidableEq

/-- `url_get_host`, without the cut of `pre_displayLink` at `hostEnd`. -/
def urlGetHost (url : List UInt8) (isReal : Bool) (phishy : Phishy) : HostResult :=
  let (start, stop, phishy) := getHost url isReal phishy
  let host := assignedHost url start stop
  if invalidHost host isReal phishy then
    ⟨.clean, host, start, stop, phishy⟩
  else
    ⟨.nodecision, host, start, stop,
      if isNumeric host then { phishy with numericIp := true } else phishy⟩

/-- `phishy_map` -/
def phishyMap (phishy : Phishy) (fallback : PhishStatus) : PhishStatus :=
  if phishy.usernameInUrl then
    .cloakedUiu
  else if phishy.numericIp then
    .numericIp
  else
    fallback

end LibClamav.Phish
