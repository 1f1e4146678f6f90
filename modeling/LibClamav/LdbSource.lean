import LibClamav.LsigSource
import LibClamav.ParseAdd

namespace LibClamav.Db

open CText Ac Bm Lsig

/-!
# Logical signatures: `load_oneldb` and `cli_lsig_eval`

A line of a database becomes an entry of the table of its target, and each of
its subsignatures a pattern that knows the entry.  After the scan of a file the
entries are evaluated over the counters that the patterns left.
-/

/-- `CL_FLEVEL`, the value of `cl_retflevel` -/
def clFlevel : Nat := 53

/-- `CLI_MTARGETS` -/
def cliMtargets : Nat := 10

/-- `LDB_TOKENS` -/
def ldbTokens : Nat := 67

/-- `ATTRIB_TOKENS` -/
def attribTokens : Nat := 8

/-- `struct cl_engine`, as far as signatures are loaded into it. -/
structure Engine where
  root : Nat → Matcher

/-- The entries of `cli_mtargets` with `ac_only`. -/
def mtargetAcOnly (type : Nat) : Bool := type != 0 && type != 1

/-- One round of `cli_initroots`; the last line of the function is for root 1. -/
def initRoot
    (engineAcOnly : Bool)
    (mindepth maxdepth : Nat)
    (dconfPrefiltering : Bool)
    (type : Nat) :
    Matcher :=
  { ac := cliAcInit (freshRoot type) mindepth maxdepth dconfPrefiltering
    bm := cliBmInit
      { type := type
        bmOffmode := type == 1
        bmShift := fun _ => 0
        bmSuffix := fun _ => [] }
    acOnly := mtargetAcOnly type || engineAcOnly }

/-- `cli_initroots` -/
def cliInitroots
    (engineAcOnly : Bool)
    (mindepth maxdepth : Nat)
    (dconfPrefiltering : Bool) :
    Engine :=
  ⟨initRoot engineAcOnly mindepth maxdepth dconfPrefiltering⟩

/-- `cli_strtokenize`: at most so many fields, empty ones included. -/
def cliStrtokenize (delim : Char) : Nat → List Char → List (List Char)
  | 0, _ => []
  | count + 1, buffer =>
    match cutAt delim buffer with
    | (token, none) => [token]
    | (token, some rest) => token :: cliStrtokenize delim count rest

/-- The names in `attrtab`. -/
inductive Attrib where
  | target
  | engine
  | filesize
  | ep
  | nos
  | icongrp1
  | icongrp2
  | container
  deriving Repr, DecidableEq

/-- The lookup in `attrtab`. -/
def attribOf (name : List Char) : Option Attrib :=
  [("Target", Attrib.target), ("Engine", .engine), ("FileSize", .filesize),
    ("EntryPoint", .ep), ("NumberOfSections", .nos), ("IconGroup1", .icongrp1),
    ("IconGroup2", .icongrp2), ("Container", .container)].findSome?
      fun entry => if entry.1.toList = name then some entry.2 else none

/-- The two ways in which `lsigattribs` fails, -1 and 1. -/
inductive AttribError where
  | malformed
  | unsupported
  deriving Repr, DecidableEq

/-- What a load depends on besides the text. -/
structure LdbEnv where
  /-- `cli_ftcode`; an unknown type has no code. -/
  ftcode : List Char → Option Nat
  /-- `chkpua && cli_chkpua(...)` -/
  chkpua : List Char → Bool
  /-- `chkign && cli_chkign(...)`, which also sees the whole line. -/
  chkign : List Char → List Char → Bool
  /-- `options & CL_DB_OFFICIAL` -/
  official : Bool

/-- The argument of an attribute with a range. -/
def readAttribRange (value : List Char) : Except AttribError (Nat × Nat) :=
  match cutAt '-' value with
  | (_, none) => .error .malformed
  | (low, some high) =>
    if cliIsnumber low ∧ cliIsnumber high then
      .ok (atoi low, atoi high)
    else
      .error .malformed

/-- The `switch` on the type of an attribute, with its assignment. -/
def setAttrib
    (env : LdbEnv)
    (attrib : Attrib)
    (value : List Char)
    (tdb : LsigTdb) :
    Except AttribError LsigTdb :=
  match attrib with
  | .target =>
    if cliIsnumber value then
      .ok { tdb with target := some (atoi value) }
    else
      .error .malformed
  | .engine =>
    (readAttribRange value).map fun range => { tdb with engine := range }
  | .filesize =>
    (readAttribRange value).map fun range => { tdb with filesize := range }
  | .ep =>
    (readAttribRange value).map fun range => { tdb with ep := range }
  | .nos =>
    (readAttribRange value).map fun range => { tdb with nos := range }
  | .icongrp1 =>
    .ok { tdb with icongrp1 := value }
  | .icongrp2 =>
    .ok { tdb with icongrp2 := value }
  | .container =>
    match env.ftcode value with
    | none => .error .unsupported
    | some code => .ok { tdb with container := code }

/-- The first loop of `lsigattribs`; the flag is `have_newext`. -/
def lsigattribsLoop
    (env : LdbEnv) :
    Nat → List (List Char) → LsigTdb → Bool → Except AttribError (LsigTdb × Bool)
  | _, [], tdb, newext => .ok (tdb, newext)
  | i, token :: rest, tdb, newext =>
    match cutAt ':' token with
    | (_, none) => .error .malformed
    | (name, some value) =>
      match attribOf name with
      | none => .error .unsupported
      | some attrib =>
        if attrib = .engine ∧ i ≠ 0 then
          .error .malformed
        else
          match setAttrib env attrib value tdb with
          | .error failed => .error failed
          | .ok tdb =>
            lsigattribsLoop env (i + 1) rest tdb
              (newext || (attrib != .engine && attrib != .target))

/-- `!tdb->engine || tdb->engine[0] < 51` -/
def lacksNewLevel (tdb : LsigTdb) : Bool :=
  match tdb.engine with
  | none => true
  | some (low, _) => low < 51

/-- `lsigattribs` -/
def lsigattribs (env : LdbEnv) (attribs : List Char) : Except AttribError LsigTdb :=
  match lsigattribsLoop env 0 (cliStrtokenize ',' attribTokens attribs) {}
      false with
  | .error failed => .error failed
  | .ok (tdb, newext) =>
    if newext ∧ lacksNewLevel tdb then .error .malformed else .ok tdb

/-- `tdb.engine[0] > cl_retflevel() || tdb.engine[1] < cl_retflevel()` -/
def excludesLevel (tdb : LsigTdb) : Bool :=
  match tdb.engine with
  | none => false
  | some (low, high) => clFlevel < low || high < clFlevel

/-- The offset and the text of a subsignature. -/
def splitSubsig (token : List Char) : List Char × List Char :=
  match cutAt ':' token with
  | (offset, some sig) => (offset, sig)
  | (sig, none) => (['*'], sig)

/-- The arguments of `cli_parse_add` for subsignature `i` of entry `id`. -/
def subsigArgs
    (env : LdbEnv)
    (virname : List Char)
    (id i : Nat)
    (token : List Char) :
    ParseArgs :=
  { virname := virname
    hexsig := (splitSubsig token).2
    offset := (splitSubsig token).1
    lsigid := some (id, i)
    official := env.official }

/--
The loop over the subsignatures, from number `i` on; the flag tells that the
level is excluded, which is found out behind the first of them.
-/
def loadSubsigs
    (env : LdbEnv)
    (virname : List Char)
    (tdb : LsigTdb)
    (id : Nat) :
    Nat → List (List Char) → Matcher → Option (Except ClError (Matcher × Bool))
  | _, [], root => some (.ok (root, false))
  | i, token :: rest, root =>
    match cliParseAdd root (subsigArgs env virname id i token) with
    | none => none
    | some (.error code) => some (.error code)
    | some (.ok added) =>
      if excludesLevel tdb then
        some (.ok (added, true))
      else
        loadSubsigs env virname tdb id (i + 1) rest added

/-- The checks of `load_oneldb` on the attributes. -/
def attribsAllowed (tdb : LsigTdb) (target : Nat) : Bool :=
  ((tdb.icongrp1.isNone && tdb.icongrp2.isNone) || target == 1) &&
    ((tdb.ep.isNone && tdb.nos.isNone) || target == 1 || target == 6 || target == 9)

/-- A new entry, before its attributes are copied to it. -/
def pushLsig (root : Matcher) (logic : List Char) (bcIdx : Nat) : Matcher :=
  { root with
    acLsigtable := root.acLsigtable ++
      [{ id := root.acLsigtable.length, logic := logic, bcIdx := bcIdx }] }

/-- Copy the attributes of a line to its entry. -/
def setTdb (root : Matcher) (id : Nat) (tdb : LsigTdb) : Matcher :=
  { root with
    acLsigtable := root.acLsigtable.modify id fun lsig => { lsig with tdb := tdb } }

/-- The rest of `load_oneldb`, for a line with good attributes. -/
def registerLsig
    (env : LdbEnv)
    (engine : Engine)
    (virname logic : List Char)
    (subsigs : List (List Char))
    (bcIdx : Nat)
    (tdb : LsigTdb)
    (target sigs : Nat) :
    Option (Except ClError (Engine × Nat)) :=
  let root := engine.root target
  let id := root.acLsigtable.length
  match loadSubsigs env virname tdb id 0 subsigs
      (pushLsig root logic bcIdx) with
  | none => none
  | some (.error code) => some (.error code)
  | some (.ok (added, true)) =>
    some (.ok (⟨Function.update engine.root target added⟩, sigs - 1))
  | some (.ok (added, false)) =>
    some (.ok (⟨Function.update engine.root target
      (setTdb added id { tdb with subsigs := subsigs.length })⟩, sigs))

/--
`load_oneldb`; `line` is zero for a logical signature that comes with a
bytecode.
-/
def loadOneldb
    (env : LdbEnv)
    (engine : Engine)
    (line bcIdx : Nat)
    (buffer : List Char)
    (sigs : Nat) :
    Option (Except ClError (Engine × Nat)) :=
  match cliStrtokenize ';' (ldbTokens + 1) buffer with
  | virname :: attribs :: logic :: first :: rest =>
    if env.chkpua virname ∨ env.chkign virname buffer then
      some (.ok (engine, sigs))
    else
      match loadOneldbSubsigs logic (rest.length + 4) line with
      | none => some (.error .emalfdb)
      | some _ =>
        match lsigattribs env attribs with
        | .error .malformed => some (.error .emalfdb)
        | .error .unsupported => some (.ok (engine, sigs - 1))
        | .ok tdb =>
          match tdb.target with
          | none => some (.error .emalfdb)
          | some target =>
            if target ≥ cliMtargets then
              some (.ok (engine, sigs - 1))
            else if attribsAllowed tdb target then
              registerLsig env engine virname logic (first :: rest) bcIdx tdb target sigs
            else
              some (.error .emalfdb)
  | _ => some (.error .emalfdb)

/-- What a database file has the engine load. -/
inductive Load where
  /-- A line of an `.ldb` file. -/
  | ldb (buffer : List Char)
  /-- The logical signature of the bytecode with index `count + 1`. -/
  | cbc (count : Nat) (buffer : List Char)
  /-- A signature of its own, for one target. -/
  | sig (target : Nat) (args : ParseArgs)

/-- The name of a bytecode is checked elsewhere. -/
def LdbEnv.unchecked (env : LdbEnv) : LdbEnv :=
  { env with chkpua := fun _ => false, chkign := fun _ _ => false }

/-- The effect of one load; `sigs` counts a line before it is loaded. -/
def Load.run
    (env : LdbEnv)
    (engine : Engine) :
    Load → Option (Except ClError Engine)
  | .ldb buffer =>
    (loadOneldb env engine 1 0 buffer 1).map fun result => result.map Prod.fst
  | .cbc count buffer =>
    match loadOneldb env.unchecked engine 0 (count + 1) buffer 1 with
    | some (.ok (loaded, 1)) => some (.ok loaded)
    | some (.ok _) => some (.error .emalfdb)
    | some (.error code) => some (.error code)
    | none => none
  | .sig target args =>
    match cliParseAdd (engine.root target)
        { args with lsigid := none } with
    | none => none
    | some (.error code) => some (.error code)
    | some (.ok added) =>
      some (.ok ⟨Function.update engine.root target added⟩)

/-- Load after load; the first error ends it. -/
def loadAll (env : LdbEnv) : Engine → List Load → Option (Except ClError Engine)
  | engine, [] => some (.ok engine)
  | engine, load :: rest =>
    match load.run env engine with
    | none => none
    | some (.error code) => some (.error code)
    | some (.ok loaded) => loadAll env loaded rest

/-- What an evaluation depends on besides the table and the counters. -/
structure EvalCtx where
  /-- `ctx->container_type` -/
  containerType : Nat
  /-- The file, with what the header parser of the target makes of it. -/
  file : FileMap
  /-- `matchicon(ctx, grp1, grp2) == CL_VIRUS` -/
  matchicon : Option (List Char) → Option (List Char) → Bool
  /-- `cli_bytecode_runlsig(...) == CL_VIRUS` -/
  runlsig : Nat → (Nat → Nat) → (Nat → Nat) → Bool

/-- A value lies in an optional range. -/
def inRange (range : Option (Nat × Nat)) (value : Nat) : Bool :=
  match range with
  | none => true
  | some (low, high) => low ≤ value && value ≤ high

/-- The test of `ep` and `nos`, which needs a header. -/
def headerAllows (ctx : EvalCtx) (type : Nat) (tdb : LsigTdb) : Bool :=
  if tdb.ep.isSome || tdb.nos.isSome then
    (type == 1 || type == 6 || type == 9) &&
      match ctx.file.header with
      | none => false
      | some info =>
        inRange tdb.ep info.ep && inRange tdb.nos info.sections.length
  else
    true

/-- The conditions on the file for a signature whose expression holds. -/
def tdbAllows
    (ctx : EvalCtx)
    (type : Nat)
    (tdb : LsigTdb) :
    Bool := (match tdb.container with
    | none => true
    | some code => code == ctx.containerType) &&
    inRange tdb.filesize ctx.file.len && headerAllows ctx type tdb

/-- `cli_ac_chkmacro`; no macro groups are ever tied to a subsignature. -/
def cliAcChkmacro (tdb : LsigTdb) (mdata : AcData) (lsigid1 : Nat) : AcData :=
  (List.range tdb.subsigs).foldl (fun mdata i => lsigSubMatched mdata lsigid1 i offNone) mdata

/-- One round of `cli_lsig_eval` returns `CL_VIRUS`. -/
def lsigReports
    (ctx : EvalCtx)
    (type : Nat)
    (mdata : AcData)
    (i : Nat)
    (lsig : AcLsig) :
    Bool :=
  (evalLsig lsig.logic (mdata.lsigcnt i)).ret == 1 && tdbAllows ctx type lsig.tdb &&
    if lsig.tdb.icongrp1.isSome || lsig.tdb.icongrp2.isSome then
      ctx.matchicon lsig.tdb.icongrp1 lsig.tdb.icongrp2
    else if lsig.bcIdx = 0 then
      true
    else
      ctx.runlsig lsig.bcIdx (mdata.lsigcnt i) (mdata.lsigsuboff i)

/-- The loop of `cli_lsig_eval` from entry `i` on. -/
def lsigEvalLoop
    (ctx : EvalCtx)
    (type : Nat) :
    Nat → List AcLsig → AcData → Option Nat
  | _, [], _ => none
  | i, lsig :: rest, mdata =>
    let checked := cliAcChkmacro lsig.tdb mdata i
    if lsigReports ctx type checked i lsig then
      some i
    else
      lsigEvalLoop ctx type (i + 1) rest checked

/-- `cli_lsig_eval`, with the entry for which it returns `CL_VIRUS`. -/
def cliLsigEval (ctx : EvalCtx) (root : Matcher) (mdata : AcData) : Option Nat :=
  lsigEvalLoop ctx root.ac.type 0 root.acLsigtable mdata

end LibClamav.Db
