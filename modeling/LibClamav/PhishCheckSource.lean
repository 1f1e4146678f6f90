import LibClamav.PhishSource

namespace LibClamav.Phish

/-!
# Comparing a displayed link with the real one

`isURL`, `get_domain` and `phishingCheck` of phishcheck.c.  The lists of the
engine and the compiled expression are parameters.
-/

/-- What the check asks of the engine. -/
structure Engine where
  /-- `isNumericURL` -/
  isNumericURL : List UInt8 → Bool
  /-- `url_hash_match` on the list of domains -/
  urlHashMatch : List UInt8 → PhishStatus
  /-- `whitelist_match`: the real link, the displayed one and `hostOnly` -/
  whitelistMatch : List UInt8 → List UInt8 → Bool → Bool
  /-- `domainlist_match`: the displayed host as it is left, if it is listed -/
  domainlistMatch : List UInt8 → List UInt8 → List UInt8 → Option (List UInt8)

/-- `URI_alpha` -/
def uriAlpha (c : UInt8) : Bool := (0x41 ≤ c && c ≤ 0x5a) || (0x61 ≤ c && c ≤ 0x7a)

/-- `URI_xpalpha_nodot` -/
def uriXpalphaNodot (c : UInt8) : Bool :=
  (0x21 ≤ c && c ≤ 0x2d) || (0x30 ≤ c && c ≤ 0x39) || (0x40 ≤ c && c ≤ 0x5a) ||
    c == 0x5f || (0x61 ≤ c && c ≤ 0x7a)

/-- `URI_xalpha_nodot`, which is without `#` and `+` -/
def uriXalphaNodot (c : UInt8) : Bool := uriXpalphaNodot c && c != 0x23 && c != 0x2b

/-- `validate_uri_xpalphas_nodot` -/
def validateUriXpalphasNodot (text : List UInt8) : Bool := text.all uriXpalphaNodot && !text.isEmpty

/-- `validate_uri_ialpha` -/
def validateUriIalpha : List UInt8 → Bool
  | [] => false
  | c :: rest => uriAlpha c && rest.all uriXalphaNodot

/-- `https:`, `http:`, `ftp:` and `mailto://` -/
def httpsText : List UInt8 := [0x68, 0x74, 0x74, 0x70, 0x73, 0x3a]
def httpText : List UInt8 := [0x68, 0x74, 0x74, 0x70, 0x3a]
def ftpText : List UInt8 := [0x66, 0x74, 0x70, 0x3a]
def mailtoProto : List UInt8 := [0x6d, 0x61, 0x69, 0x6c, 0x74, 0x6f, 0x3a, 0x2f, 0x2f]

/-- The end of a known protocol: `start` behind the switch. -/
def protocolEnd (text : List UInt8) : Option Nat :=
  if httpsText.isPrefixOf text then
    some (httpsText.length - 1)
  else if httpText.isPrefixOf text then
    some (httpText.length - 1)
  else if ftpText.isPrefixOf text then
    some (ftpText.length - 1)
  else if mailtoProto.isPrefixOf text then
    some (mailtoProto.length - 1)
  else
    none

/-- Where the host is looked for: the scheme is skipped if it is valid. -/
def afterScheme (text : List UInt8) (colon : Option Nat) : Nat :=
  match colon with
  | none => 0
  | some colon =>
    if validateUriIalpha (text.take colon) then
      if text[colon + 1]? = some 0x2f then
        if text[colon + 2]? = some 0x2f then colon + 3 else colon + 2
      else
        colon + 1
    else
      0

/--
The loop over the dots before `stop`: `p` and `last_tld_end`, or nothing if a
part is not valid.
-/
def dotParts
    (acceptAny : Bool)
    (text : List UInt8)
    (stop : Nat) :
    Nat → Nat → Option Nat → Option (Nat × Option Nat)
  | 0, p, lastTld => some (p, lastTld)
  | fuel + 1, p, lastTld =>
    match (text.drop p).idxOf? 0x2e with
    | none => some (p, lastTld)
    | some k =>
      if stop < p + k then
        some (p, lastTld)
      else
        let part := (text.drop p).take k
        if validateUriXpalphasNodot part then
          dotParts acceptAny text stop fuel (p + k + 1)
            (if acceptAny && inTldSet part then some (p + k) else lastTld)
        else
          none

/-- `isURL` behind the spaces: the answer and where the text is cut. -/
def isUrlText (acceptAny : Bool) (text : List UInt8) : Bool × Option Nat :=
  let protocol := protocolEnd text
  let slashes := protocol.any fun start =>
    text[start + 1]? == some 0x2f && text[start + 2]? == some 0x2f
  if slashes then
    (true, none)
  else
    let colon := if acceptAny then text.idxOf? 0x3a else protocol
    let start := afterScheme text colon
    let stop := start + ((text.drop start).takeWhile (· != 0x2f)).length
    match dotParts acceptAny text stop (text.length + 1) start none with
    | none => (false, none)
    | some (p, lastTld) =>
      if p = start then
        (false, none)
      else if inTldSet ((text.drop p).take (stop - p)) then
        (true, none)
      else if acceptAny = false then
        (false, none)
      else
        (lastTld.isSome, lastTld)

/-- `isURL`: the answer and the text, which it may cut. -/
def isURL (url : List UInt8) (acceptAny : Bool) : Bool × List UInt8 :=
  let spaces := (url.takeWhile (· == 0x20)).length
  let (answer, cut) := isUrlText acceptAny (url.drop spaces)
  (answer, (cut.map fun stop => url.take (spaces + stop)).getD url)

/-- `isSSL` -/
def isSSL (url : List UInt8) : Bool := httpsText.isPrefixOf url

/-- `get_domain` -/
def getDomain (host : List UInt8) : List UInt8 :=
  let strip (tld : Nat) :=
    match lastOf 0x2e (host.take tld) with
    | none => host
    | some domain => host.drop (domain + 1)
  match lastOf 0x2e host with
  | none => host
  | some tld =>
    if inCctldSet (host.drop (tld + 1)) then
      match lastOf 0x2e (host.take tld) with
      | none => host
      | some second =>
        if inTldSet ((host.drop (second + 1)).take (tld - second - 1)) then
          strip second
        else
          host.drop (second + 1)
    else
      strip tld

/-- The flags of a check; `always_check_flags` are those kept for other domains. -/
structure CheckFlags where
  checkSsl : Bool
  checkCloaking : Bool
  cleanupUrl : Bool
  checkImgUrl : Bool
  deriving Repr, DecidableEq

/-- `urls->flags &= urls->always_check_flags` -/
def CheckFlags.inter (flags always : CheckFlags) : CheckFlags where
  checkSsl := flags.checkSsl && always.checkSsl
  checkCloaking := flags.checkCloaking && always.checkCloaking
  cleanupUrl := flags.cleanupUrl && always.cleanupUrl
  checkImgUrl := flags.checkImgUrl && always.checkImgUrl

/-- `struct url_check` -/
structure UrlCheck where
  realLink : List UInt8
  displayLink : List UInt8
  flags : CheckFlags
  alwaysCheckFlags : CheckFlags
  linkIsImage : Bool
  deriving Repr, DecidableEq

/-- How a check ends: at one of the returns before the last, or there. -/
inductive CheckEnd where
  | early (status : PhishStatus)
  | last (phishy : Phishy)
  deriving Repr, DecidableEq

/-- The verdict of a check. -/
def CheckEnd.status : CheckEnd → PhishStatus
  | .early status => status
  | .last phishy => phishyMap phishy .nomatch

/-- `cleanupURLs`: the real link, the displayed one and `pre_displayLink`. -/
def cleanupURLs (urls : UrlCheck) : Option (List UInt8 × List UInt8 × List UInt8) :=
  if urls.flags.cleanupUrl then do
    let realLink ← cleanupReal urls.realLink
    let (displayLink, preDisplay) ← cleanupDisplay urls.displayLink
    return (realLink, displayLink, preDisplay)
  else
    some (urls.realLink, urls.displayLink, [])

/-- `phishingCheck` behind the match of the displayed host. -/
def compareHosts
    (engine : Engine)
    (urls : UrlCheck)
    (realLink displayLink displayHost : List UInt8)
    (listed : Option (List UInt8))
    (phishy : Phishy) :
    CheckEnd :=
  let flags := if listed.isSome then urls.flags else urls.flags.inter urls.alwaysCheckFlags
  if urls.linkIsImage && !flags.checkImgUrl then
    .early .clean
  else if flags.checkCloaking && realLink.contains 0x01 then
    .early .cloakedNull
  else if flags.checkSsl && isSSL displayLink && !isSSL realLink then
    .early .sslSpoof
  else if listed.isNone then
    .early .clean
  else
    let displayHost := listed.getD displayHost
    let real := urlGetHost realLink true
      { phishy with domainListed := true }
    if real.status ≠ .nodecision then
      .early .clean
    else if engine.whitelistMatch real.host displayHost true then
      .early .clean
    else if realLink = displayLink then
      .early .clean
    else if getDomain real.host = getDomain displayHost then
      .early .clean
    else
      .last real.phishy

/-- `phishingCheck` -/
def phishingCheck (engine : Engine) (urls : UrlCheck) : Option CheckEnd :=
  if urls.realLink = urls.displayLink then
    some (.early .clean)
  else if (isURL urls.realLink false).1 = false then
    some (.early .clean)
  else if engine.urlHashMatch urls.realLink ≠ .nodecision then
    some (.early (engine.urlHashMatch urls.realLink))
  else if urls.displayLink = [] then
    some (.early .clean)
  else do
    let (realLink, displayLink, preDisplay) ← cleanupURLs urls
    if urls.flags.cleanupUrl && realLink == displayLink then
      return .early .clean
    let phishy : Phishy := {}
    let (isUrl, displayLink) := isURL displayLink true
    if !isUrl && ((phishy.numericIp && !engine.isNumericURL displayLink) || !phishy.numericIp) then
      return .early .clean
    if engine.whitelistMatch realLink displayLink false then
      return .early .clean
    let display := urlGetHost displayLink false phishy
    if display.status ≠ .nodecision then
      return .early .clean
    let listed := engine.domainlistMatch display.host []
      (preDisplay.take display.hostEnd)
    return compareHosts engine urls realLink displayLink display.host listed display.phishy

end LibClamav.Phish
