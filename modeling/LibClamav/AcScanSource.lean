import LibClamav.AcSource

namespace LibClamav.Ac

/-!
# `cli_ac_scanbuff`

The loops of the scan, and what is done with a pattern that is found at a
place.  Words of `offmatrix` are kept as the 32-bit patterns that they are in
memory, so that -1 is `0xffffffff`.
-/

/-- `CLI_DEFAULT_AC_TRACKLEN` -/
def acTracklen : Nat := 8

/-- The value -1 of an unused entry of `offmatrix`. -/
def offUnset : Nat := 0xffffffff

/-- The rows of one signature in `offmatrix`; column 0 counts the entries. -/
abbrev OffMatrix := Nat → Nat → Nat

/-- The fields of `struct cli_ac_data` that a scan writes. -/
structure AcData where
  offmatrix : Nat → Option OffMatrix := fun _ => none
  lsigcnt : Nat → Nat → Nat := fun _ _ => 0
  lsigsuboff : Nat → Nat → Nat := fun _ _ => offNone
  macroLastmatch : Nat → Nat := fun _ => offNone

/-- `struct cli_ac_result` -/
structure AcResult where
  virname : List Char
  customdata : Option Nat
  offset : Nat
  deriving Repr, DecidableEq

/-- `struct cli_matched_type` -/
structure MatchedType where
  type : Nat
  offset : Nat
  deriving Repr, DecidableEq

/-- `CL_TYPE_MSEXE` -/
def clTypeMsexe : Nat := 506

/-- `CL_TYPE_ZIP` -/
def clTypeZip : Nat := 517

/-- `CL_TYPE_MSOLE2` -/
def clTypeMsole2 : Nat := 522

/-- `CL_TYPE_SFX` -/
def clTypeSfx : Nat := 541

/-- `CL_TYPE_ZIPSFX` -/
def clTypeZipsfx : Nat := 542

/-- `CL_TYPE_IGNORED` -/
def clTypeIgnored : Nat := 549

/-- `MAX_EMBEDDED_OBJ` -/
def maxEmbeddedObj : Nat := 10

/--
The arguments of a scan, with the fields `offset` and `vinfo` of the data,
which it only reads.
-/
structure ScanArgs where
  offset : Nat := 0
  ftype : Nat := 0
  /-- `mode & AC_SCAN_VIR` -/
  scanVir : Bool := true
  /-- `mode & AC_SCAN_FT` -/
  scanFt : Bool := false
  /-- `res` is not null. -/
  wantsRes : Bool := false
  /-- `ftoffset` is not null. -/
  wantsTypes : Bool := false
  /-- `ctx->engine->maxfiles`, zero without a context. -/
  maxfiles : Nat := 0
  relOffset : Nat → Nat := fun _ => offNone
  vinfo : Nat → Bool := fun _ => false

/-- What a scan writes: the data, `*res`, `*ftoffset` and `type`. -/
structure AcState where
  mdata : AcData := {}
  res : List AcResult := []
  ftoffset : List MatchedType := []
  type : Nat := 0

/-- The codes with which a scan returns. -/
inductive AcCode where
  | clean
  | virus (virname : List Char) (customdata : Option Nat)
  | type (type : Nat)
  /-- A null pointer was followed, or a loop does not end. -/
  | stuck
  deriving Repr, DecidableEq

/-- A pattern that is reported on: its group was accepted by its head. -/
structure Hit where
  head : Nat
  pt : Nat
  bp : Nat
  matchend : Nat
  deriving Repr, DecidableEq

/-- `offset + bp - pt->prefix_length` -/
def ScanArgs.realoff (args : ScanArgs) (bp : Nat) (pt : AcPatt) : Nat :=
  (args.offset + bp + 2 ^ 32 - pt.prefixPat.length) % 2 ^ 32

/-- The offset of a pattern is tested against `realoff`. -/
def checksOffset (pt : AcPatt) : Bool := pt.offsetMin != offAny && (pt.sigid == 0 || pt.partno == 1)

/-- The test of an absolute or relative offset. -/
def offsetHolds (args : ScanArgs) (pt : AcPatt) (realoff : Nat) : Bool :=
  if pt.offsetMin = offNone then
    false
  else if pt.offdata.type = .absolute then
    pt.offsetMin ≤ realoff && realoff ≤ pt.offsetMax
  else
    args.relOffset pt.offsetMin != offNone && args.relOffset pt.offsetMin ≤ realoff &&
      realoff ≤ args.relOffset pt.offsetMax

/-- `ac_addtype` -/
def acAddtype
    (args : ScanArgs)
    (type offset : Nat)
    (list : List MatchedType) :
    List MatchedType :=
  let cnt := list.length % 2 ^ 16
  let full :=
    if type = clTypeZipsfx then
      list ≠ [] ∧ args.maxfiles ≠ 0 ∧ cnt > args.maxfiles
    else
      list ≠ [] ∧ cnt ≥ maxEmbeddedObj
  if full then list else list ++ [⟨type, offset⟩]

/-- `lsig_sub_matched`; no macro groups are ever tied to a subsignature. -/
def lsigSubMatched (mdata : AcData) (lsigid1 lsigid2 realoff : Nat) : AcData :=
  let counted :=
    if realoff ≠ offNone then
      { mdata with
        lsigcnt := Function.update mdata.lsigcnt lsigid1
          (Function.update (mdata.lsigcnt lsigid1) lsigid2
            ((mdata.lsigcnt lsigid1 lsigid2 + 1) % 2 ^ 32)) }
    else
      mdata
  if mdata.lsigsuboff lsigid1 lsigid2 = offNone then
    { counted with
      lsigsuboff := Function.update mdata.lsigsuboff lsigid1
        (Function.update (mdata.lsigsuboff lsigid1) lsigid2 realoff) }
  else
    counted

/-- The type of a found pattern replaces the one found before. -/
def takesType (args : ScanArgs) (pt : AcPatt) (state : AcState) : Bool :=
  (pt.type > state.type || pt.type ≥ clTypeSfx || pt.type == clTypeMsexe) &&
    (pt.rtype == 0 || args.ftype == pt.rtype)

/-- The places of a found type are noted. -/
def notesType
    (args : ScanArgs)
    (pt : AcPatt)
    (state : AcState) :
    Bool := args.wantsTypes &&
    (state.ftoffset.length % 2 ^ 16 < maxEmbeddedObj || pt.type == clTypeZipsfx) &&
    (pt.type ≥ clTypeSfx || ((args.ftype == clTypeMsexe || args.ftype == clTypeZip ||
        args.ftype == clTypeMsole2) && pt.type == clTypeMsexe))

/-- `CL_TYPE_IGNORED` ends the scan. -/
def ignoresFile (args : ScanArgs) (pt : AcPatt) : Bool :=
  pt.type == clTypeIgnored && (pt.rtype == 0 || args.ftype == pt.rtype)

/-- A found file type; `places` are the offsets that are noted for it. -/
def typeFound
    (args : ScanArgs)
    (pt : AcPatt)
    (places : List Nat)
    (state : AcState) :
    Except (AcCode × AcState) AcState :=
  if ignoresFile args pt then
    .error (.type clTypeIgnored, state)
  else if takesType args pt state then
    .ok { state with
      type := pt.type
      ftoffset :=
        if notesType args pt state then
          places.foldl (fun list place => acAddtype args pt.type place list)
            state.ftoffset
        else
          state.ftoffset }
  else
    .ok state

/-- A found signature: its logical signature, its result, or its name. -/
def virusFound
    (args : ScanArgs)
    (pt : AcPatt)
    (realoff : Nat)
    (state : AcState) :
    Except (AcCode × AcState) AcState :=
  match pt.lsigid with
  | some (lsigid1, lsigid2) =>
    .ok { state with
      mdata := lsigSubMatched state.mdata lsigid1 lsigid2 realoff }
  | none =>
    if args.wantsRes then
      .ok { state with
        res := ⟨pt.virname, pt.customdata, realoff⟩ :: state.res }
    else
      .error (.virus pt.virname pt.customdata, state)

/-- The rows of a signature before its first part is found. -/
def freshMatrix : OffMatrix := fun _ column => if column = 0 then 0 else offUnset

/-- The distance of a part to the end of the part before, in 32 bits. -/
def partDistance (realoff previous : Nat) : Nat := (realoff + 2 ^ 32 - previous) % 2 ^ 32

/-- The test of `maxdist` and `mindist`; zero is no limit. -/
def distanceHolds (pt : AcPatt) (realoff previous : Nat) : Bool :=
  (pt.maxdist == 0 || partDistance realoff previous ≤ pt.maxdist) &&
    (pt.mindist == 0 || pt.mindist ≤ partDistance realoff previous)

/-- The used entries of a row from column `j` on. -/
def rowEntries (row : Nat → Nat) : Nat → Nat → List Nat
  | 0, _ => []
  | columns + 1, j =>
    if row j = offUnset then
      []
    else
      row j :: rowEntries row columns (j + 1)

/-- `found`: some end of the part before is at the right distance. -/
def findPrevious (pt : AcPatt) (realoff : Nat) (row : Nat → Nat) : Bool :=
  (rowEntries row acTracklen 1).any (distanceHolds pt realoff)

/-- Write one entry of a matrix. -/
def OffMatrix.set (matrix : OffMatrix) (row column value : Nat) : OffMatrix :=
  Function.update matrix row (Function.update (matrix row) column value)

/-- Record the end of a part, and for the first part also its start. -/
def recordPart
    (args : ScanArgs)
    (pt : AcPatt)
    (realoff matchend : Nat)
    (matrix : OffMatrix) :
    OffMatrix :=
  let column := matrix (pt.partno - 1) 0 % acTracklen + 1
  let noted :=
    (matrix.set (pt.partno - 1) 0 column).set (pt.partno - 1) column
      ((args.offset + matchend) % 2 ^ 32)
  if pt.partno = 1 then
    noted.set (pt.parts - 1) column realoff
  else
    noted

/-- Write the rows of a signature. -/
def AcState.setMatrix
    (state : AcState)
    (sigid : Nat)
    (matrix : OffMatrix) :
    AcState :=
  { state with
    mdata := { state.mdata with
      offmatrix := Function.update state.mdata.offmatrix (sigid - 1)
        (some matrix) } }

/-- The last part of a signature of a file type. -/
def partTypeFound
    (args : ScanArgs)
    (pt : AcPatt)
    (matrix : OffMatrix)
    (state : AcState) :
    Except (AcCode × AcState) AcState :=
  let places :=
    (List.range (rowEntries (matrix 0) acTracklen 1).length).map fun j =>
      matrix (pt.parts - 1) (j + 1)
  match typeFound args pt places state with
  | .error result => .error result
  | .ok later =>
    .ok (if takesType args pt state then
      later.setMatrix pt.sigid freshMatrix
    else
      later)

/-- A part of a signature is found. -/
def partFound
    (args : ScanArgs)
    (pt : AcPatt)
    (realoff matchend : Nat)
    (state : AcState) :
    Except (AcCode × AcState) AcState :=
  let known := state.mdata.offmatrix (pt.sigid - 1)
  let matrix := known.getD freshMatrix
  if pt.partno ≠ 1 ∧ (known.isNone ∨ matrix (pt.partno - 2) 0 = 0) then
    .ok state
  else
    let found := findPrevious pt realoff (matrix (pt.partno - 2))
    if pt.partno = 1 ∨ (found ∧ pt.partno ≠ pt.parts) then
      .ok (state.setMatrix pt.sigid (recordPart args pt realoff matchend matrix))
    else if found then
      if pt.type ≠ 0 then
        partTypeFound args pt matrix state
      else
        virusFound args pt realoff state
    else
      .ok state

/-- The offset of `pt` allows the place. -/
def placeAllowed (args : ScanArgs) (pt : AcPatt) (realoff : Nat) : Bool :=
  if pt.offdata.type = .version then
    args.vinfo realoff
  else if checksOffset pt then
    offsetHolds args pt realoff
  else
    true

/-- The body of the loop over `next_same`. -/
def reportHit
    (root : AcRoot)
    (args : ScanArgs)
    (hit : Hit)
    (state : AcState) :
    Except (AcCode × AcState) AcState :=
  let pt := root.patt hit.pt
  let realoff := args.realoff hit.bp pt
  if (pt.type ≠ 0 ∧ !args.scanFt) ∨ (pt.type = 0 ∧ !args.scanVir) then
    .ok state
  else if pt.offdata.type = .macroGroup then
    .ok { state with
      mdata := { state.mdata with
        macroLastmatch := Function.update state.mdata.macroLastmatch
          (root.patt hit.head).offdata.value realoff } }
  else if placeAllowed args pt realoff then
    if pt.sigid ≠ 0 then
      partFound args pt realoff hit.matchend state
    else if pt.type ≠ 0 then
      typeFound args pt [realoff] state
    else
      virusFound args pt realoff state
  else
    .ok state

section

variable {σ ε : Type}

/-- The first tests of a head that is alone in its group. -/
def skipsHead
    (root : AcRoot)
    (args : ScanArgs)
    (p : Nat)
    (realoff : Nat) :
    Bool :=
  let patt := root.patt p
  patt.offdata.type != .version && patt.offdata.type != .macroGroup &&
    (root.nextSame p).isNone && checksOffset patt &&
    !offsetHolds args patt realoff

/-- The body of the loop over the list of a node. -/
def acVisit
    (root : AcRoot)
    (buffer : List UInt8)
    (args : ScanArgs)
    (report : Hit → σ → Except ε σ)
    (stuck : ε)
    (i p : Nat)
    (state : σ) :
    Except ε σ :=
  let patt := root.patt p
  let bp := i + 1 - patt.depth
  let realoff := args.realoff bp patt
  if skipsHead root args p realoff then
    .ok state
  else
    match acFindmatch buffer bp realoff patt with
    | none => .ok state
    | some matchend =>
      LinkedChain.loop root.nextSame (fun pt => report ⟨p, pt, bp, matchend⟩) stuck
        root.acPattable.length (some p) state

/-- All loops of `cli_ac_scanbuff` over a body `report`. -/
def acScan
    (root : AcRoot)
    (buffer : List UInt8)
    (args : ScanArgs)
    (report : Hit → σ → Except ε σ)
    (stuck : ε)
    (state : σ) :
    Except ε σ :=
  scanLoop root (acVisit root buffer args report stuck) stuck buffer 0 0 state

end

/-- What a scan returns once its loops are left. -/
def scanReturn
    (args : ScanArgs)
    (result : Except (AcCode × AcState) AcState) :
    AcCode × AcState :=
  match result with
  | .error early => early
  | .ok state => (if args.scanFt then .type state.type else .clean, state)

/-- `cli_ac_scanbuff` -/
def cliAcScanbuff
    (root : AcRoot)
    (buffer : List UInt8)
    (args : ScanArgs)
    (state : AcState) :
    AcCode × AcState :=
  scanReturn args (acScan root buffer args (reportHit root args)
      (.stuck, { state with type := 0 }) { state with type := 0 })

/-- The hits that a scan reports on, in their order. -/
def acHits
    (root : AcRoot)
    (buffer : List UInt8)
    (args : ScanArgs) :
    Except Unit (List Hit) :=
  acScan root buffer args (fun hit hits => .ok (hits ++ [hit])) () []

end LibClamav.Ac
