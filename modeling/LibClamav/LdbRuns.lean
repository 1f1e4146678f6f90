import LibClamav.AcTable
import LibClamav.LdbSource

namespace LibClamav.Db

open CText Ac Bm Lsig List Function

/-!
# Loads that exclude the engine

The functionality level of a line is looked at when its entry and its first
subsignature are already there.  What stays behind is an entry without
attributes whose first counter alone can move; all later loads keep it that way.
-/

variable {virname buffer : List Char} {target line : Nat} {stored : LsigTdb} {built : AcRoot}
  (ctx : EvalCtx)

section

/-- The expression of a line. -/
def lineLogic (buffer : List Char) : List Char :=
  (cliStrtokenize ';' (ldbTokens + 1) buffer).getD 2 []

/-- The range of the `Engine` attribute, which has to be the first one. -/
def attribsEngine (attribs : List Char) : Option (Nat × Nat) :=
  match cutAt ':' (cutAt ',' attribs).1 with
  | (name, some value) =>
    if attribOf name = some .engine then
      (readAttribRange value).toOption
    else
      none
  | (_, none) => none

/-- The `Engine` range of a line. -/
def lineEngine (buffer : List Char) : Option (Nat × Nat) :=
  attribsEngine ((cliStrtokenize ';' (ldbTokens + 1) buffer).getD 1 [])

variable {env : LdbEnv}

theorem setAttrib_engine
    {attrib : Attrib}
    {value : List Char}
    {tdb later : LsigTdb}
    (sets : setAttrib env attrib value tdb = .ok later) :
    later.engine =
      if attrib = .engine then (readAttribRange value).toOption
      else tdb.engine := by
  unfold setAttrib at sets
  cases attrib with
  | engine | filesize | ep | nos =>
    cases isRange : readAttribRange value with
    | error failed =>
      rw [isRange] at sets
      cases sets
    | ok range =>
      rw [isRange] at sets
      cases sets
      rfl
  | icongrp1 | icongrp2 =>
    cases sets
    rfl
  | target =>
    simp only at sets
    split at sets
    · cases sets
      rfl
    · cases sets
  | container =>
    simp only at sets
    split at sets
    · cases sets
    · cases sets
      rfl

theorem lsigattribsLoop_engine
    (tokens : List (List Char))
    {i : Nat}
    {tdb later : LsigTdb}
    {newext laterNewext : Bool}
    (notFirst : i ≠ 0)
    (reads : lsigattribsLoop env i tokens tdb newext = .ok (later, laterNewext)) :
    later.engine = tdb.engine := by
  induction tokens generalizing i tdb later newext laterNewext with
  | nil =>
    cases reads
    rfl
  | cons token rest ih =>
    rw [lsigattribsLoop] at reads
    split at reads
    · cases reads
    split at reads
    · cases reads
    rename_i attrib isAttrib
    split at reads
    · cases reads
    rename_i allowed
    split at reads
    · cases reads
    · rename_i middle sets
      rw [ih (Nat.succ_ne_zero i) reads, setAttrib_engine sets, if_neg]
      exact fun isEngine => allowed ⟨isEngine, notFirst⟩

/-- The range of `Engine` is that of the first attribute. -/
theorem lsigattribs_engine
    {attribs : List Char}
    {tdb : LsigTdb}
    (reads : lsigattribs env attribs = .ok tdb) :
    tdb.engine = attribsEngine attribs := by
  obtain ⟨rest, tokens⟩ : ∃ rest,
      cliStrtokenize ',' attribTokens attribs = (cutAt ',' attribs).1 :: rest := by
    unfold attribTokens cliStrtokenize
    split
    · rename_i token isCut
      exact ⟨[], by rw [isCut]⟩
    · rename_i token behind isCut
      exact ⟨_, by rw [isCut]⟩
  unfold lsigattribs at reads
  rw [tokens] at reads
  split at reads
  · cases reads
  rename_i later newext loops
  split at reads
  · cases reads
  cases reads
  rw [lsigattribsLoop] at loops
  unfold attribsEngine
  split at loops
  · cases loops
  rename_i name value isCut
  rw [isCut]
  split at loops
  · cases loops
  rename_i attrib isAttrib
  split at loops
  · cases loops
  split at loops
  · cases loops
  · rename_i middle sets
    rw [lsigattribsLoop_engine rest Nat.one_ne_zero loops, setAttrib_engine sets]
    simp [isAttrib]

end

section

variable {env : LdbEnv} {tdb : LsigTdb}

/-- Subsignatures that are loaded only add patterns. -/
theorem loadSubsigs_grows
    {id : Nat}
    (tokens : List (List Char))
    {i : Nat}
    {root added : Matcher}
    {stopped : Bool}
    (loaded : Loaded root.ac)
    (loads : loadSubsigs env virname tdb id i tokens root = some (.ok (added, stopped))) :
    ∃ new, Grows root added new [] ∧ (∀ patt ∈ new, ∃ k, patt.lsigid = some (id, k)) ∧
      (tokens ≠ [] → excludesLevel tdb = true →
        stopped = true ∧ ∀ patt ∈ new, patt.lsigid = some (id, i)) := by
  induction tokens generalizing i root added stopped with
  | nil =>
    cases loads
    exact ⟨[], Grows.refl loaded, fun _ impossible => (nomatch impossible),
      fun notEmpty => absurd rfl notEmpty⟩
  | cons token rest ih =>
    rw [loadSubsigs] at loads
    split at loads
    · cases loads
    · cases loads
    rename_i middle adds
    obtain ⟨new, grows, isOwn⟩ := cliParseAdd_grows loaded adds
    split at loads
    · cases loads
      exact ⟨new, grows, fun patt mem => ⟨i, isOwn patt mem⟩, fun _ _ => ⟨rfl, isOwn⟩⟩
    rename_i included
    obtain ⟨more, growsMore, isOwnMore, -⟩ := ih grows.ac.loaded loads
    refine ⟨new ++ more, grows.trans growsMore, ?_, fun _ excluded => absurd excluded included⟩
    intro patt mem
    rcases mem_append.mp mem with isNew | isLater
    · exact ⟨i, isOwn patt isNew⟩
    · exact isOwnMore patt isLater

/-- What a registered line leaves in the matcher of its target. -/
structure Registers
    (root added : Matcher) (logic : List Char) (bcIdx : Nat) (tdb : LsigTdb) (new : List AcPatt)
    (stored : LsigTdb) : Prop where
  grows : Grows root added new [(logic, stored, bcIdx)]
  own : ∀ patt ∈ new, ∃ k, patt.lsigid = some (root.acLsigtable.length, k)
  excluded : excludesLevel tdb = true → stored = {} ∧
    ∀ patt ∈ new, patt.lsigid = some (root.acLsigtable.length, 0)

variable {root added : Matcher} {logic : List Char} {bcIdx : Nat} {new : List AcPatt}

theorem pushLsig_table
    (grows : Grows (pushLsig root logic bcIdx) added new []) :
    added.acLsigtable.map AcLsig.core = root.acLsigtable.map AcLsig.core ++
        [(logic, ({} : LsigTdb), bcIdx)] := by
  rw [grows.table, append_nil]
  exact map_append

theorem setTdb_table
    {old : LsigTdb}
    {front : List (List Char × LsigTdb × Nat)}
    (tdb : LsigTdb)
    (table : root.acLsigtable.map AcLsig.core = front ++ [(logic, old, bcIdx)]) :
    (setTdb root front.length tdb).acLsigtable.map AcLsig.core =
      front ++ [(logic, tdb, bcIdx)] := by
  obtain ⟨before, after, isTable, isFront, isLast⟩ := map_eq_append_iff.mp table
  obtain ⟨lsig, rfl, isLsig⟩ := map_eq_singleton_iff.mp isLast
  have lengths : front.length = before.length := by rw [← isFront, length_map]
  obtain ⟨isLogic, -, isIdx⟩ : lsig.logic = logic ∧ lsig.tdb = old ∧ lsig.bcIdx = bcIdx := by
    simpa [AcLsig.core] using isLsig
  unfold setTdb
  rw [isTable, lengths, modify_eq_take_cons_drop (by simp)]
  simp [AcLsig.core, isFront, isLogic, isIdx]

variable {engine loaded : Engine} {sigs laterSigs : Nat}

/-- What a signature that is registered leaves in the engine. -/
theorem registerLsig_ok
    {subsigs : List (List Char)}
    (isLoaded : Loaded (engine.root target).ac)
    (notEmpty : subsigs ≠ [])
    (registers : registerLsig env engine virname logic subsigs bcIdx tdb target
      sigs = some (.ok (loaded, laterSigs))) :
    ∃ added new stored, loaded = ⟨update engine.root target added⟩ ∧
        Registers (engine.root target) added logic bcIdx tdb new stored := by
  have pushed : Loaded (pushLsig (engine.root target) logic bcIdx).ac := isLoaded
  unfold registerLsig at registers
  simp only at registers
  split at registers
  · cases registers
  · cases registers
  · rename_i added loads
    cases registers
    obtain ⟨new, grows, own, excluded⟩ := loadSubsigs_grows subsigs pushed loads
    have table := pushLsig_table grows
    exact ⟨added, new, {}, rfl, ⟨grows.ac, table⟩, own,
      fun excludes => ⟨rfl, (excluded notEmpty excludes).2⟩⟩
  rename_i added loads
  cases registers
  obtain ⟨new, grows, own, excluded⟩ := loadSubsigs_grows subsigs pushed loads
  have table := setTdb_table { tdb with subsigs := subsigs.length } (pushLsig_table grows)
  rw [length_map] at table
  refine ⟨_, new, _, rfl, ⟨grows.ac, table⟩, own, ?_⟩
  intro excludes
  cases (excluded notEmpty excludes).1

/-- A line is skipped or registered. -/
theorem loadOneldb_ok
    (isLoaded : ∀ target, Loaded (engine.root target).ac)
    (loads : loadOneldb env engine line bcIdx buffer sigs = some (.ok (loaded, laterSigs))) :
    loaded = engine ∨ ∃ tdb target added new stored, tdb.engine = lineEngine buffer ∧
          loaded = ⟨update engine.root target added⟩ ∧
          Registers (engine.root target) added (lineLogic buffer) bcIdx tdb new
            stored := by
  unfold loadOneldb at loads
  split at loads
  · rename_i virname attribs logic first rest tokens
    split at loads
    · cases loads
      exact .inl rfl
    split at loads
    · cases loads
    split at loads
    · cases loads
    · cases loads
      exact .inl rfl
    rename_i tdb reads
    split at loads
    · cases loads
    rename_i target isTarget
    split at loads
    · cases loads
      exact .inl rfl
    split at loads
    · obtain ⟨added, new, stored, isUpdate, registers⟩ :=
        registerLsig_ok (isLoaded target) (cons_ne_nil _ _) loads
      refine .inr ⟨tdb, target, added, new, stored, ?_, isUpdate, ?_⟩
      · rw [lsigattribs_engine reads, lineEngine, tokens]
        rfl
      · rw [lineLogic, tokens]
        exact registers
    · cases loads
  · cases loads

/-- Patterns may know only entries that are there. -/
structure Advances (root added : Matcher) : Prop where
  loaded : Loaded added.ac
  type : added.ac.type = root.ac.type
  patts : ∃ new, added.ac.acPattable = root.ac.acPattable ++ new ∧
    ∀ patt ∈ new, ∀ id k, patt.lsigid = some (id, k) →
      root.acLsigtable.length ≤ id ∧ id < added.acLsigtable.length
  table : root.acLsigtable.map AcLsig.core <+:
    added.acLsigtable.map AcLsig.core

theorem Advances.refl (loaded : Loaded root.ac) : Advances root root :=
  ⟨loaded, rfl, ⟨[], (append_nil _).symm, fun _ impossible => (nomatch impossible)⟩, prefix_rfl⟩

theorem Advances.length_le
    (advances : Advances root added) :
    root.acLsigtable.length ≤ added.acLsigtable.length := by
  simpa using advances.table.length_le

/-- Two loads only add to a matcher. -/
theorem Advances.trans
    {first second third : Matcher}
    (left : Advances first second)
    (right : Advances second third) :
    Advances first third := by
  obtain ⟨new, isSecond, bounds⟩ := left.patts
  obtain ⟨newer, isThird, newerBounds⟩ := right.patts
  refine ⟨right.loaded, right.type.trans left.type, ⟨new ++ newer, ?_, ?_⟩,
    left.table.trans right.table⟩
  · rw [isThird, isSecond, append_assoc]
  intro patt mem id k isLsig
  rcases mem_append.mp mem with isNew | isNewer
  · have bound := bounds patt isNew id k isLsig
    exact ⟨bound.1, lt_of_lt_of_le bound.2 right.length_le⟩
  · have bound := newerBounds patt isNewer id k isLsig
    exact ⟨le_trans left.length_le bound.1, bound.2⟩

theorem Registers.length_eq
    (registers : Registers root added logic bcIdx tdb new stored) :
    added.acLsigtable.length = root.acLsigtable.length + 1 := by
  simpa using congrArg length registers.grows.table

theorem Registers.advances
    (registers : Registers root added logic bcIdx tdb new stored) :
    Advances root added := by
  have grows := registers.grows
  refine ⟨grows.ac.loaded, grows.ac.type, ⟨new, grows.ac.pattable, ?_⟩, ⟨_, grows.table.symm⟩⟩
  intro patt mem id k isLsig
  obtain ⟨k', isOwn⟩ := registers.own patt mem
  cases isLsig.symm.trans isOwn
  rw [registers.length_eq]
  exact ⟨le_rfl, Nat.lt_succ_self _⟩

theorem advances_update
    (isLoaded : ∀ target, Loaded (engine.root target).ac)
    (advances : Advances (engine.root target) added)
    (other : Nat) :
    Advances (engine.root other) (update engine.root target added other) := by
  by_cases same : other = target
  · subst same
    rw [update_self]
    exact advances
  · rw [update_of_ne same]
    exact Advances.refl (isLoaded other)

/-- A line only adds to the matchers. -/
theorem loadOneldb_advances
    (isLoaded : ∀ target, Loaded (engine.root target).ac)
    (loads : loadOneldb env engine line bcIdx buffer sigs = some (.ok (loaded, laterSigs)))
    (target : Nat) :
    Advances (engine.root target) (loaded.root target) := by
  rcases loadOneldb_ok isLoaded loads with
    rfl | ⟨tdb, place, added, new, stored, -, rfl, registers⟩
  · exact Advances.refl (isLoaded target)
  · exact advances_update isLoaded registers.advances target

theorem Load.run_advances
    {load : Load}
    (isLoaded : ∀ target, Loaded (engine.root target).ac)
    (runs : load.run env engine = some (.ok loaded))
    (target : Nat) :
    Advances (engine.root target) (loaded.root target) := by
  cases load with
  | ldb buffer =>
    rw [Load.run] at runs
    cases outcome : loadOneldb env engine 1 0 buffer 1 with
    | none =>
      rw [outcome] at runs
      cases runs
    | some result =>
      rw [outcome] at runs
      cases result with
      | error code => cases runs
      | ok pair =>
        cases runs
        exact loadOneldb_advances isLoaded outcome target
  | cbc count buffer =>
    rw [Load.run] at runs
    split at runs
    · rename_i outcome
      cases runs
      exact loadOneldb_advances isLoaded outcome target
    · cases runs
    · cases runs
    · cases runs
  | sig place args =>
    rw [Load.run] at runs
    split at runs
    · cases runs
    · cases runs
    rename_i added adds
    cases runs
    obtain ⟨new, grows, isOwn⟩ := cliParseAdd_grows (isLoaded place) adds
    refine advances_update isLoaded ⟨grows.ac.loaded, grows.ac.type,
      ⟨new, grows.ac.pattable, ?_⟩, ⟨_, grows.table.symm⟩⟩ target
    intro patt mem id k isLsig
    cases isLsig.symm.trans (isOwn patt mem)

/-- So do all lines of all files. -/
theorem loadAll_advances
    (loads : List Load)
    {engine loaded : Engine}
    (isLoaded : ∀ target, Loaded (engine.root target).ac)
    (runs : loadAll env engine loads = some (.ok loaded))
    (target) :
    Advances (engine.root target) (loaded.root target) := by
  induction loads generalizing engine loaded target with
  | nil =>
    cases runs
    exact Advances.refl (isLoaded target)
  | cons load rest ih =>
    rw [loadAll] at runs
    split at runs
    · cases runs
    · cases runs
    · rename_i middle runsOne
      have advances := Load.run_advances isLoaded runsOne
      exact (advances target).trans (ih (fun other => (advances other).loaded) runs target)

/-- The first matchers are empty. -/
theorem cliInitroots_loaded
    (engineAcOnly : Bool)
    (mindepth maxdepth : Nat)
    (dconfPrefiltering : Bool)
    (target : Nat) :
    Loaded ((cliInitroots engineAcOnly mindepth maxdepth dconfPrefiltering).root target).ac :=
  ⟨_, _, _, cliAcInit_inv target mindepth maxdepth dconfPrefiltering⟩

end

theorem lsigSubMatched_offNone
    (mdata : AcData)
    (lsigid1 lsigid2 : Nat) :
    lsigSubMatched mdata lsigid1 lsigid2 offNone = mdata := by
  unfold lsigSubMatched
  simp only [ne_eq, not_true_eq_false, if_false]
  split_ifs with unset
  · rw [← unset, update_eq_self, update_eq_self]
  · rfl

/-- Without macros `cli_ac_chkmacro` does nothing. -/
theorem cliAcChkmacro_eq
    (tdb : LsigTdb)
    (mdata : AcData)
    (lsigid1 : Nat) :
    cliAcChkmacro tdb mdata lsigid1 = mdata := by
  unfold cliAcChkmacro
  induction range tdb.subsigs with
  | nil => rfl
  | cons i rest ih =>
    rw [foldl_cons, lsigSubMatched_offNone]
    exact ih

/-- Entry `i` of a matcher makes its round return `CL_VIRUS`. -/
def EntryReports
    (ctx : EvalCtx)
    (root : Matcher)
    (mdata : AcData)
    (i : Nat) :
    Prop :=
  ∃ lsig, root.acLsigtable[i]? = some lsig ∧ lsigReports ctx root.ac.type mdata i lsig = true

theorem le_of_lsigEvalLoop
    {ctx : EvalCtx}
    {type : Nat}
    (table : List AcLsig) :
    ∀ {i k : Nat} {mdata : AcData}, lsigEvalLoop ctx type i table mdata = some k → i ≤ k := by
  induction table with
  | nil => exact fun impossible => (nomatch impossible)
  | cons lsig rest ih =>
    intro i k mdata found
    rw [lsigEvalLoop] at found
    split at found
    · cases found
      exact le_rfl
    · exact Nat.le_of_succ_le (ih found)

/-- The loop stops at the first entry that reports. -/
theorem lsigEvalLoop_eq_some_iff
    (type : Nat)
    (mdata : AcData)
    (table : List AcLsig) :
    ∀ (i k : Nat), lsigEvalLoop ctx type i table mdata = some (i + k) ↔
        (∃ lsig, table[k]? = some lsig ∧ lsigReports ctx type mdata (i + k) lsig = true) ∧
        ∀ j < k, ¬ ∃ lsig, table[j]? = some lsig ∧
          lsigReports ctx type mdata (i + j) lsig = true := by
  induction table with
  | nil => simp [lsigEvalLoop]
  | cons lsig rest ih =>
    intro i k
    rw [lsigEvalLoop]
    simp only [cliAcChkmacro_eq]
    split_ifs with reports
    · cases k with
      | zero => simp [reports]
      | succ k =>
        rw [Nat.forall_lt_succ_left]
        simp [reports]
    · cases k with
      | zero =>
        have later : lsigEvalLoop ctx type (i + 1) rest mdata ≠ some i := fun found =>
          absurd (le_of_lsigEvalLoop rest found) (Nat.not_succ_le_self _)
        simp [later, reports]
      | succ k =>
        have later := ih (i + 1) k
        simp only [Nat.add_right_comm i 1] at later
        rw [Nat.forall_lt_succ_left]
        simp [← Nat.add_assoc, later, reports]

/-- `cli_lsig_eval` reports the first entry that does. -/
theorem cliLsigEval_eq_some_iff
    (root : Matcher)
    (mdata : AcData)
    (id : Nat) :
    cliLsigEval ctx root mdata = some id ↔ EntryReports ctx root mdata id ∧
        ∀ i < id, ¬ EntryReports ctx root mdata i := by
  have loops := lsigEvalLoop_eq_some_iff ctx root.ac.type mdata root.acLsigtable 0 id
  simp only [zero_add] at loops
  exact loops

/-- The counters of an entry of which only the first subsignature is there. -/
def onlyFirst (count : Nat) : Nat → Nat := fun k => if k = 0 then count else 0

/-- The counts of an entry come from its patterns. -/
theorem scanAll_lsigcnt
    {base : AcRoot}
    {word : Nat → List UInt8}
    {own : List UInt8 → List Nat}
    {group : Nat → List Nat}
    (inv : AcInv base word own group)
    (done : Ac.Built base built word own)
    {a b : Nat}
    (noPatt : ∀ p, (built.patt p).lsigid ≠ some (a, b))
    (scans : List (List UInt8 × ScanArgs))
    (state : AcState) :
    (scanAll built scans state).mdata.lsigcnt a b = state.mdata.lsigcnt a b := by
  induction scans generalizing state with
  | nil => rfl
  | cons scan rest ih =>
    obtain ⟨buffer, args⟩ := scan
    rw [Ac.scanAll, ih]
    refine cliAcScanbuff_rule inv done
      (fun mdata => mdata.lsigcnt a b = state.mdata.lsigcnt a b) ?_ rfl
    intro hit _ later same
    rw [reportHit_lsigcnt built args hit later (noPatt hit.pt)]
    exact same

/-- What an excluded line leaves behind, in the matcher of its target. -/
structure LeftBehind (root : Matcher) (id : Nat) (logic : List Char) : Prop where
  loaded : Loaded root.ac
  entry : (root.acLsigtable.map AcLsig.core)[id]? = some (logic, ({} : LsigTdb), 0)
  patts : ∀ patt ∈ root.ac.acPattable, ∀ k, patt.lsigid = some (id, k) → k = 0

variable {root : Matcher} {id : Nat} {logic : List Char}

/-- An entry stays as it was left behind. -/
theorem LeftBehind.advance
    {added : Matcher}
    (left : LeftBehind root id logic)
    (advances : Advances root added) :
    LeftBehind added id logic := by
  obtain ⟨new, isAdded, bounds⟩ := advances.patts
  have inside : id < root.acLsigtable.length := by
    have := (List.getElem?_eq_some_iff.mp left.entry).1
    simpa using this
  refine ⟨advances.loaded, ?_, ?_⟩
  · obtain ⟨more, isTable⟩ := advances.table
    rw [← isTable, getElem?_append_left (by simpa using inside)]
    exact left.entry
  intro patt mem k isLsig
  rw [isAdded] at mem
  rcases mem_append.mp mem with isOld | isNew
  · exact left.patts patt isOld k isLsig
  · have bound := (bounds patt isNew id k isLsig).1
    omega

/-- Such an entry reports by its logic alone. -/
theorem LeftBehind.entryReports_iff
    (left : LeftBehind root id logic)
    (ctx : EvalCtx)
    (mdata : AcData) :
    EntryReports ctx root mdata id ↔ (evalLsig logic (mdata.lsigcnt id)).ret = 1 := by
  have entry := left.entry
  rw [getElem?_map, Option.map_eq_some_iff] at entry
  obtain ⟨lsig, isEntry, isCore⟩ := entry
  obtain ⟨isLogic, isTdb, isIdx⟩ : lsig.logic = logic ∧ lsig.tdb = {} ∧ lsig.bcIdx = 0 := by
    simpa [AcLsig.core] using isCore
  have reports : lsigReports ctx root.ac.type mdata id lsig = true ↔
      (evalLsig logic (mdata.lsigcnt id)).ret = 1 := by
    unfold lsigReports tdbAllows headerAllows
    rw [isLogic, isTdb, isIdx]
    simp [inRange]
  constructor
  · rintro ⟨other, isOther, reported⟩
    cases isEntry.symm.trans isOther
    exact reports.mp reported
  · exact fun holds => ⟨lsig, isEntry, reports.mpr holds⟩

/-- Only the subsignatures that were loaded count for it. -/
theorem LeftBehind.lsigcnt_eq
    (left : LeftBehind root id logic)
    (builds : cliAcBuildtrie root.ac = some built)
    (scans : List (List UInt8 × ScanArgs)) :
    (scanAll built scans {}).mdata.lsigcnt id =
      onlyFirst ((scanAll built scans {}).mdata.lsigcnt id 0) := by
  obtain ⟨word, own, group, inv⟩ := left.loaded
  obtain ⟨built', builds', done⟩ := cliAcBuildtrie_built inv
  cases builds.symm.trans builds'
  funext k
  unfold onlyFirst
  split
  · rename_i isFirst
    rw [isFirst]
  rename_i notFirst
  rw [scanAll_lsigcnt inv done ?_ scans {}]
  intro p isLsig
  refine notFirst ?_
  have isPatt : built.patt p = root.ac.patt p := by
    unfold AcRoot.patt
    rw [done.tables.pattable]
  rw [isPatt] at isLsig
  by_cases inside : p < root.ac.acPattable.length
  · rw [AcRoot.patt_eq_getElem _ inside] at isLsig
    exact left.patts _ (getElem_mem inside) k isLsig
  · rw [AcRoot.patt, getD_eq_getElem?_getD, getElem?_eq_none (not_lt.mp inside)] at isLsig
    cases isLsig

/-- A signature for other levels is left behind. -/
theorem Registers.leftBehind
    {added : Matcher}
    {tdb : LsigTdb}
    {new : List AcPatt}
    (registers : Registers root added logic 0 tdb new stored)
    (excluded : excludesLevel tdb = true)
    (known : ∀ patt ∈ root.ac.acPattable, ∀ id k,
      patt.lsigid = some (id, k) → id < root.acLsigtable.length) :
    LeftBehind added root.acLsigtable.length logic := by
  obtain ⟨isStored, isFirst⟩ := registers.excluded excluded
  refine ⟨registers.grows.ac.loaded, ?_, ?_⟩
  · rw [registers.grows.table, isStored, getElem?_append_right (by simp), length_map, Nat.sub_self]
    rfl
  intro patt mem k isLsig
  rw [registers.grows.ac.pattable] at mem
  rcases mem_append.mp mem with isOld | isNew
  · exact absurd (known patt isOld _ k isLsig) (lt_irrefl _)
  · cases isLsig.symm.trans (isFirst patt isNew)
    rfl

theorem loadAll_known
    {env : LdbEnv}
    {engineAcOnly dconfPrefiltering : Bool}
    {mindepth maxdepth : Nat}
    {loads : List Load}
    {engine : Engine}
    (runs : loadAll env (cliInitroots engineAcOnly mindepth maxdepth
      dconfPrefiltering) loads = some (.ok engine))
    (target : Nat) :
    Loaded (engine.root target).ac ∧ ∀ patt ∈ (engine.root target).ac.acPattable, ∀ id k,
        patt.lsigid = some (id, k) → id < (engine.root target).acLsigtable.length := by
  have advances := loadAll_advances loads
    (cliInitroots_loaded engineAcOnly mindepth maxdepth dconfPrefiltering)
    runs target
  obtain ⟨new, isTable, bounds⟩ := advances.patts
  refine ⟨advances.loaded, ?_⟩
  intro patt mem id k isLsig
  rw [isTable] at mem
  rcases mem_append.mp mem with isOld | isNew
  · cases isOld
  · exact (bounds patt isNew id k isLsig).2

/--
An `.ldb` line whose `Engine` range excludes the level still reports a file if
its expression holds with the counter of its first subsignature and zeros, and
no entry before it reports.
-/
theorem excluded_line_silent_iff
    (env : LdbEnv)
    (engineAcOnly dconfPrefiltering : Bool)
    (mindepth maxdepth : Nat)
    (before later : List Load)
    (buffer : List Char)
    (engine loaded final : Engine)
    (sigs low high : Nat)
    (loadsBefore : loadAll env (cliInitroots engineAcOnly mindepth maxdepth
      dconfPrefiltering) before = some (.ok engine))
    (loadsLine : loadOneldb env engine 1 0 buffer 1 = some (.ok (loaded, sigs)))
    (range : lineEngine buffer = some (low, high))
    (excluded : clFlevel < low ∨ high < clFlevel)
    (loadsLater : loadAll env loaded later = some (.ok final))
    (target id : Nat)
    (isOld : (engine.root target).acLsigtable.length ≤ id)
    (isNew : id < (loaded.root target).acLsigtable.length) :
    ∃ built, cliAcBuildtrie (final.root target).ac = some built ∧
      ∀ (scans : List (List UInt8 × ScanArgs)) (ctx : EvalCtx), cliLsigEval ctx (final.root target)
            (scanAll built scans {}).mdata ≠ some id ↔
          (∃ i < id, EntryReports ctx (final.root target) (scanAll built scans {}).mdata i) ∨
          (evalLsig (lineLogic buffer)
            (onlyFirst ((scanAll built scans {}).mdata.lsigcnt id 0))).ret ≠
              1 := by
  have known := loadAll_known loadsBefore
  have left : LeftBehind (loaded.root target) id (lineLogic buffer) := by
    rcases loadOneldb_ok (fun other => (known other).1) loadsLine with
      same | ⟨tdb, place, added, new, stored, isRange, isUpdate, registers⟩
    · rw [same] at isNew
      omega
    rw [isUpdate] at isNew ⊢
    by_cases isPlace : target = place
    · subst isPlace
      simp only [update_self] at isNew ⊢
      rw [registers.length_eq] at isNew
      have isId : id = (engine.root target).acLsigtable.length := by omega
      rw [isId]
      refine registers.leftBehind ?_ (known target).2
      unfold excludesLevel
      rw [isRange, range]
      simpa using excluded
    · simp only [update_of_ne isPlace] at isNew
      omega
  have loadedAll (other : Nat) : Loaded (loaded.root other).ac :=
    (loadOneldb_advances (fun place => (known place).1) loadsLine other).loaded
  have stays := left.advance (loadAll_advances later loadedAll loadsLater target)
  obtain ⟨word, own, group, inv⟩ := stays.loaded
  obtain ⟨built, builds, -⟩ := cliAcBuildtrie_built inv
  refine ⟨built, builds, fun scans ctx => ?_⟩
  rw [Ne, cliLsigEval_eq_some_iff, stays.entryReports_iff, stays.lsigcnt_eq builds scans]
  generalize (scanAll built scans {}).mdata.lsigcnt id 0 = count
  constructor
  · intro silent
    by_contra reported
    push Not at reported
    exact silent ⟨reported.2, reported.1⟩
  · rintro (⟨i, isBefore, reports⟩ | fails) ⟨holds, first⟩
    · exact first i isBefore reports
    · exact fails holds

/-- An official database without checks on names. -/
def plainEnv : LdbEnv where
  ftcode _ := none
  chkpua _ := false
  chkign _ _ := false
  official := true

/-- A file of three bytes that is no executable. -/
def plainCtx : EvalCtx where
  containerType := 0
  file := { len := 3 }
  matchicon _ _ := false
  runlsig _ _ _ := false

/-- A line for other levels that needs both of its subsignatures. -/
def pairLine : List Char := "Pair;Engine:100-200,Target:0;0&1;616263;646566".toList

/-- A line for other levels with one subsignature. -/
def singleLine : List Char := "Single;Engine:100-200,Target:0;0;616263".toList

/-- The logic fails with one subsignature only. -/
theorem pairLine_fails
    (count : Nat) :
    (evalLsig (lineLogic pairLine) (onlyFirst count)).ret ≠ 1 := by
  have isZero : (evalLsig (lineLogic pairLine) (onlyFirst count)).ret = 0 := by
    cases count with
    | zero | succ count => rfl
  rw [isZero]
  decide

/-- Without its second subsignature the line never reports. -/
theorem excluded_line_silent_pairLine :
    ∃ loaded built, loadOneldb plainEnv (cliInitroots false 2 3 true) 1 0 pairLine 1 =
        some (.ok (loaded, 0)) ∧
      cliAcBuildtrie (loaded.root 0).ac = some built ∧
      ∀ (scans : List (List UInt8 × ScanArgs)) (ctx : EvalCtx),
        cliLsigEval ctx (loaded.root 0) (scanAll built scans {}).mdata ≠ some 0 := by
  obtain ⟨loaded, loads, isNew⟩ :
      ∃ loaded, loadOneldb plainEnv (cliInitroots false 2 3 true) 1 0 pairLine 1 =
            some (.ok (loaded, 0)) ∧
          0 < (loaded.root 0).acLsigtable.length :=
    ⟨_, rfl, by decide⟩
  obtain ⟨built, builds, silent⟩ :=
    excluded_line_silent_iff plainEnv false true 2 3 [] [] pairLine _ loaded
      loaded 0 100 200 rfl loads rfl (.inl (by decide)) rfl 0 0
      (Nat.le_refl 0) isNew
  exact ⟨loaded, built, loads, builds, fun scans ctx =>
    (silent scans ctx).mpr (.inr (pairLine_fails _))⟩

/-- `616263` in a file makes the line report it. -/
theorem excluded_line_reports_singleLine :
    ∃ loaded built, loadOneldb plainEnv (cliInitroots false 2 3 true) 1 0 singleLine 1 =
        some (.ok (loaded, 0)) ∧
      lineEngine singleLine = some (100, 200) ∧ clFlevel < 100 ∧
      cliAcBuildtrie (loaded.root 0).ac = some built ∧
      cliLsigEval plainCtx (loaded.root 0)
        (scanAll built [([0x61, 0x62, 0x63], {})] {}).mdata = some 0 := by
  obtain ⟨loaded, loads, maxdepth, table, entries⟩ :
      ∃ loaded, loadOneldb plainEnv (cliInitroots false 2 3 true) 1 0 singleLine 1 =
            some (.ok (loaded, 0)) ∧
          (loaded.root 0).ac.acMaxdepth = 3 ∧
          (loaded.root 0).ac.acPattable = [{
            pattern := [.char 0x61, .char 0x62, .char 0x63]
            depth := 3
            virname := "Single".toList
            offdata := { type := .any }
            offsetMin := offAny
            offsetMax := offAny
            lsigid := some (0, 0) }] ∧
          (loaded.root 0).acLsigtable = [{
            id := 0
            logic := ['0']
            virname := "Single".toList }] :=
    ⟨_, rfl, rfl, by decide, by decide⟩
  have isLoaded := loadOneldb_advances (cliInitroots_loaded false 2 3 true) loads 0
  obtain ⟨built, builds, isScan⟩ := isLoaded.loaded.scan_eq_tableScan (by
    rw [maxdepth, table]
    decide)
  rw [maxdepth, table] at isScan
  refine ⟨loaded, built, loads, rfl, by decide, builds, ?_⟩
  unfold cliLsigEval Ac.scanAll Ac.scanAll
  rw [isScan, entries, isLoaded.type]
  decide

end LibClamav.Db
